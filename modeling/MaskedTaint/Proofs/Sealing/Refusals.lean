import MaskedTaint.Command.Commands
import MaskedTaint.Proofs.Sealing.Delivery
import MaskedTaint.Proofs.Sealing.Ranges

/-! Which structures are refused. Under keys from passwords every name and every short text is
sealed, so a structure is refused only for a number out of range, however deep in the arguments of
a call it stands. A refused structure leaves the files as they were. -/

namespace MaskedTaint

/-! ### Names and texts are always sealed -/

namespace Suite

/-- The suite of two passwords, but for the cipher for numbers. -/
def ofPasswords (secret shared : String) (number openNumber : Int → Except CipherError Int) : Suite :=
  { ofKeys (Keys.ofPasswords secret shared) with number := number, openNumber := openNumber }

variable (secret shared : String) {number : Int → Except CipherError Int}
  (openNumber : Int → Except CipherError Int)

theorem total_ofPasswords (hnumber : ∀ n, Ope.plainNumbers.has n = true → ∃ x, number n = .ok x)
    (names : List String) : (ofPasswords secret shared number openNumber).Total names where
  fileKey := by
    show Aes.isKeyLength (Cipher.keyOf secret).length = true
    rw [Cipher.keyOf, Sha256.length_digest]
    rfl
  name s _ := by
    have hkey : Siv.isKeyLength (Cipher.keyOf secret).length = true := by
      rw [Cipher.keyOf, Sha256.length_digest]
      rfl
    obtain ⟨bs, hbs⟩ := Cipher.exists_nameBytes hkey s
    exact ⟨Base64.encode bs, congrArg (Except.map Base64.encode) hbs⟩
  number := hnumber

theorem sealText_ofPasswords (nonce : Bytes) {x : String} (hx : x.length < 2 ^ 32) :
    ∃ y, (ofPasswords secret shared number openNumber).sealText nonce x = .ok y := by
  have hkey : Aes.isKeyLength (Cipher.keyOf shared).length = true := by
    rw [Cipher.keyOf, Sha256.length_digest]
    rfl
  exact Cipher.exists_sealWhole hkey nonce hx

theorem terse_ofPasswords (hnumber : ∀ m n, Ope.plainNumbers.has m = true → number m = .ok n →
    (toString n).length ≤ 88) : (ofPasswords secret shared number openNumber).Terse
      fun s => (Bytes.ofText s).length < Cipher.namePadding where
  label s := by
    rw [Ciphers.label, Base64.length_encode]
    show 4 * (((Cipher.labelBytes (Cipher.keyOf shared) s).length + 2) / 3) = 88
    rw [Cipher.length_labelBytes]
  name s x hs h := by
    obtain ⟨bs, hbs, rfl⟩ := Cipher.sealName_eq_ok_iff.mp h
    rw [Base64.length_encode, Cipher.length_nameBytes hbs, Nat.div_eq_of_lt (b := 50) hs]
  number := hnumber

end Suite

/-! ### What is sealed was in range -/

namespace Sealing

variable {nonces : Nat → Bytes} {c : Ciphers} {d : Structure}

theorem inRange_of_sealsMark (hc : ∀ n x, c.number n = .ok x → Ope.plainNumbers.has n = true)
    {nonce : Bytes} {t : Token} {m' : Mark} (h : c.SealsMark nonce t.mark m') : t.InRange :=
  ⟨hc _ _ h.pos, hc _ _ h.depth, hc _ _ h.order, hc _ _ h.flow⟩

mutual

theorem inRange_of_sealToken (hc : ∀ n x, c.number n = .ok x → Ope.plainNumbers.has n = true) :
    ∀ (t : Token) {t' : Token} {n n' : Nat}, sealToken nonces c t n = (.ok t', n') →
      ∀ u ∈ t.occurrences, u.InRange
  | .site i m, t', n, n', h => by
    obtain ⟨m', _, _, hmark, _⟩ := sealToken_site_iff.mp h
    intro u hu
    rw [Token.occurrences, List.mem_singleton] at hu
    subst hu
    exact inRange_of_sealsMark (t := .site i m) hc hmark
  | .jump i m g as, t', n, n', h => by
    obtain ⟨m', g', as', _, _, hmark, _, hargs⟩ := sealToken_jump_iff.mp h
    intro u hu
    rcases List.mem_cons.mp hu with rfl | hu
    · exact inRange_of_sealsMark (t := .jump i m g as) hc hmark
    · exact inRange_of_sealTokens hc as hargs u hu

theorem inRange_of_sealTokens (hc : ∀ n x, c.number n = .ok x → Ope.plainNumbers.has n = true) :
    ∀ (ts : List Token) {ts' : List Token} {n n' : Nat}, sealTokens nonces c ts n = (.ok ts', n') →
      ∀ u ∈ Token.occurrencesIn ts, u.InRange
  | [], ts', n, n', _ => fun u hu => by cases hu
  | t :: ts, us, n, n', h => by
    obtain ⟨t', ts', k, _, hfirst, hrest⟩ := sealTokens_cons_iff.mp h
    intro u hu
    rcases List.mem_append.mp hu with hu | hu
    · exact inRange_of_sealToken hc t hfirst u hu
    · exact inRange_of_sealTokens hc ts hrest u hu

end

variable {n n' : Nat}

section

variable (hc : ∀ n x, c.number n = .ok x → Ope.plainNumbers.has n = true)

include hc

theorem inRange_of_sealLists
    {ls ls' : List (String × List Token)} (h : sealLists nonces c ls n = (.ok ls', n')) :
    ∀ l ∈ ls, ∀ u ∈ Token.occurrencesIn l.2, u.InRange := by
  intro l hl
  obtain ⟨l', -, -, _, _, hts⟩ := (sealLists_forall₂ h).exists_of_mem hl
  exact inRange_of_sealTokens hc l.2 hts

theorem inRange_of_sealScopes
    {es es' : List (String × Scope)} (h : sealScopes nonces c es n = (.ok es', n')) :
    ∀ e ∈ es, ∀ l ∈ e.2, ∀ u ∈ Token.occurrencesIn l.2, u.InRange := by
  intro e he
  obtain ⟨e', -, -, ls, _, _, -, hls⟩ := (sealScopes_forall₂ h).exists_of_mem he
  exact inRange_of_sealLists hc hls

theorem inRange_of_sealStructure {e : Structure} (h : sealStructure nonces c d n = (.ok e, n')) :
    ∀ t ∈ d.occurrences, t.InRange := by
  intro u hu
  obtain ⟨es, k, hes, _⟩ := Act.bind_eq_ok_iff.mp h
  obtain ⟨e, he, l, hl, t, ht, hu⟩ := Structure.mem_occurrences.mp hu
  exact inRange_of_sealScopes hc hes e he l hl u (Token.mem_occurrencesIn.mpr ⟨t, ht, hu⟩)

end

theorem exists_structureFile_iff {s : Suite} (htotal : s.Total d.sealedNames)
    (hc : ∀ n x, s.number n = .ok x → Ope.plainNumbers.has n = true)
    (hwhole : ∀ nonce x, x.length < 2 ^ 32 → ∃ y, s.sealText nonce x = .ok y)
    (hfiles : ∀ t ∈ d.occurrences, t.mark.file.length < 2 ^ 32)
    (hshort : ∀ e n, sealStructure nonces s.toCiphers d 0 = (.ok e, n) →
      (Structure.toText (Table.ofEntries (handedOver e))).length < 2 ^ 32) :
    (∃ file n, structureFile nonces s d 0 = (.ok file, n)) ↔ ∀ t ∈ d.occurrences, t.InRange := by
  constructor
  · rintro ⟨file, n, h⟩
    obtain ⟨e, k, he, _⟩ := Act.bind_eq_ok_iff.mp h
    exact inRange_of_sealStructure hc he
  · intro hrange
    exact exists_structureFile hwhole hrange hfiles htotal hshort

/-- The suite of two passwords delivers every structure in range whose names it seals apart: its
keys are of the right length, so that nothing is refused, and what it seals it opens. -/
theorem delivers_ofPasswords (secret shared : String)
    {number openNumber : Int → Except CipherError Int}
    (hnumber : ∀ n, Ope.plainNumbers.has n = true → ∃ x, number n = .ok x)
    (hnonces : ∀ n, (nonces n).length = 16) (hd : d.Distinct)
    (hfull : d ≠ [] ∧ ∀ e ∈ d, e.2 ≠ []) (hrange : ∀ t ∈ d.occurrences, t.InRange)
    (hfiles : ∀ t ∈ d.occurrences, t.mark.file.length < 2 ^ 32)
    (hc : SealedApart (Suite.ofPasswords secret shared number openNumber).toCiphers d)
    (hshort : ∀ e n, sealStructure nonces
      (Suite.ofPasswords secret shared number openNumber).toCiphers d 0 = (.ok e, n) →
        e.toText.length < 2 ^ 32) :
    let s := Suite.ofPasswords secret shared number openNumber
    ∃ file n text e, structureFile nonces s d 0 = (.ok file, n) ∧ s.openText file = .ok text ∧
      Structure.ofText text = .ok e ∧ d.SealedTo nonces s.toCiphers e := by
  intro s
  have hs : s.OpensTexts := (Suite.inverts_ofKeys (Keys.ofPasswords secret shared)).text
  have htotal := Suite.total_ofPasswords secret shared openNumber hnumber d.sealedNames
  obtain ⟨file, n, hfile⟩ := exists_structureFile
    (fun nonce x hx => Suite.sealText_ofPasswords secret shared openNumber nonce hx) hrange hfiles
    htotal (length_handedOver_lt hc hd hfull.2 hshort)
  obtain ⟨text, e, hopened⟩ := sealedTo_of_structureFile hs hnonces hd hfull hc hfile
  exact ⟨file, n, text, e, hfile, hopened⟩

end Sealing

/-! ### Recorded numbers -/

def rangeSteps : List (Int × Int) := (0x7fffe, 34359657153) :: recordedSteps ++ [(-1, 54555)]

def sealInRange (n : Int) : Except CipherError Int :=
  if Ope.plainNumbers.has n then .ok (stepped rangeSteps n) else .error (.number .plainRange)

def openInRange (x : Int) : Except CipherError Int := .ok (unstepped rangeSteps x)

theorem inRange_of_sealInRange (n x : Int) (h : sealInRange n = .ok x) :
    Ope.plainNumbers.has n = true := by
  unfold sealInRange at h
  split at h
  · assumption
  · cases h

theorem sealInRange_iff (n : Int) : (∃ x, sealInRange n = .ok x) ↔ -1 ≤ n ∧ n ≤ 2 ^ 19 - 2 := by
  rw [← Ope.has_plainNumbers]
  exact ⟨fun ⟨x, hx⟩ => inRange_of_sealInRange n x hx, fun h => ⟨_, if_pos h⟩⟩

theorem openInRange_sealInRange (n x : Int) (h : sealInRange n = .ok x) : openInRange x = .ok n := by
  rw [sealInRange, if_pos (inRange_of_sealInRange n x h)] at h
  cases h
  have hrising : Rising rangeSteps := by simp [rangeSteps, recordedSteps, Rising]
  exact congrArg Except.ok (unstepped_stepped hrising n)

theorem length_sealInRange {m n : Int} (hm : Ope.plainNumbers.has m = true)
    (h : sealInRange m = .ok n) : (toString n).length ≤ 88 := by
  rw [sealInRange, if_pos hm] at h
  cases h
  obtain ⟨hlo, hhi⟩ : -1 ≤ m ∧ m ≤ 0x7fffe := Ope.has_iff.mp hm
  have hbound := stepped_bounds (b := 0x800000000) (by decide) (by decide : ∀ s ∈ rangeSteps, _) m
  by_cases hneg : m = -1
  · subst hneg
    decide
  · obtain ⟨k, hk⟩ := Int.eq_ofNat_of_zero_le (by omega : 0 ≤ stepped rangeSteps m)
    rw [hk] at hbound ⊢
    exact (Nat.repr_length k 12 (by decide) (by omega)).trans (by decide)

/-! ### Files -/

namespace FileTree

variable {t : FileTree}

theorem follow_append {p q : Place} {xs : List String} (ys : List String)
    (h : t.follow p xs = .found q) : t.follow p (xs ++ ys) = t.follow q ys := by
  induction xs generalizing p with
  | nil =>
    cases h
    rfl
  | cons x xs ih =>
    rw [follow] at h
    rw [List.cons_append, follow]
    cases hentry : t.entryAt? p with
    | none =>
      rw [hentry] at h
      cases h
    | some e =>
      rw [hentry] at h
      cases e with
      | file => cases h
      | directory =>
        dsimp only at h ⊢
        by_cases hstay : (x.isEmpty || x == ".") = true
        · rw [if_pos hstay] at h ⊢
          exact ih h
        · rw [if_neg hstay] at h ⊢
          by_cases hup : (x == "..") = true
          · rw [if_pos hup] at h ⊢
            by_cases hroot : List.isEmpty p = true
            · rw [if_pos hroot] at h
              cases h
            · rw [if_neg hroot] at h ⊢
              exact ih h
          · rw [if_neg hup] at h ⊢
            exact ih h

variable {name : String}

theorem parts_append (directory : String) (h : parts name = [name]) :
    parts (directory ++ "/" ++ name) = parts directory ++ [name] := by
  have hsplit : (directory ++ "/" ++ name).toList = directory.toList ++ '/' :: name.toList := by
    simp
  rw [parts, hsplit, List.splitOn_append_cons_self, List.map_append]
  exact congrArg (parts directory ++ ·) h

theorem place_append {directory : String} {p : Place} (h : t.place directory = .found p)
    (hname : parts name = [name]) : t.place (directory ++ "/" ++ name) = t.follow p [name] := by
  unfold place at h
  split at h
  · cases h
  · rename_i hhere
    have hempty : (directory ++ "/" ++ name).isEmpty = false := by simp
    -- the directory is not empty, so its own first character decides
    have hroot : (directory ++ "/" ++ name).startsWith "/" = false := by
      rw [String.startsWith_string_eq_false_iff]
      intro hstart
      rw [Bool.or_eq_true, not_or, String.startsWith_string_iff] at hhere
      obtain ⟨hsome, hroot⟩ := hhere
      rw [String.toList_append, String.toList_append, List.append_assoc] at hstart
      cases hlist : directory.toList with
      | nil => exact hsome (by simp_all)
      | cons c cs =>
        rw [hlist] at hstart hroot
        exact hroot (by simpa using hstart)
    rw [place, hempty, hroot, parts_append directory hname]
    exact follow_append [name] h

theorem exists_write {directory : String} (hname : parts name = [name])
    (hplain : ¬ (name.isEmpty || name == ".") = true ∧ ¬ (name == "..") = true)
    (hdirectory : t.entry? directory = some .directory)
    (hfree : t.entry? (directory ++ "/" ++ name) ≠ some .directory) (text : String) :
    ∃ t', t.write (directory ++ "/" ++ name) text = .ok t' := by
  unfold entry? at hdirectory
  split at hdirectory
  · rename_i p hp
    have hplace : t.place (directory ++ "/" ++ name) = .found (p ++ [name]) := by
      rw [place_append hp hname, follow, hdirectory]
      dsimp only
      rw [if_neg hplain.1, if_neg hplain.2, follow]
    rw [ entry?, hplace] at hfree
    rw [write, hplace]
    dsimp only
    rw [List.dropLast_concat, hdirectory]
    cases hentry : t.entryAt? (p ++ [name]) with
    | none => exact ⟨_, rfl⟩
    | some e =>
      cases e with
      | file => exact ⟨_, rfl⟩
      | directory => exact absurd hentry hfree
  · cases hdirectory

end FileTree

namespace Command

def workOn {α : Type} (w : Work (StateM Desk) α) (desk : Desk) : Except CommandError α × Desk :=
  w.run.run desk

theorem workOn_bind {α β : Type} (w : Work (StateM Desk) α) (f : α → Work (StateM Desk) β)
    (desk : Desk) : workOn (w >>= f) desk =
      match workOn w desk with
      | (.ok a, after) => workOn (f a) after
      | (.error e, after) => (.error e, after) := by
  have hrun : workOn (w >>= f) desk =
      (ExceptT.bindCont f (workOn w desk).1 : StateM Desk _) (workOn w desk).2 := rfl
  rw [hrun]
  rcases workOn w desk with ⟨e | a, after⟩
  · rfl
  · rfl

theorem run_write (path text : String) (desk : Desk) :
    (Disk.write path text : StateM Desk (Except DiskError Unit)).run desk =
      match desk.tree.write path text with
      | .error e => (.error e, desk)
      | .ok tree => (.ok (), { desk with tree := tree }) := by
  simp only [Disk.write, StateT.run_bind, StateT.run_get, pure_bind]
  cases desk.tree.write path text with
  | error e => rfl
  | ok tree => rfl

theorem workOn_write (path text : String) (desk : Desk) :
    workOn (onDisk (Disk.write path text)) desk =
      match desk.tree.write path text with
      | .error e => (.error (.disk e), desk)
      | .ok tree => (.ok (), { desk with tree := tree }) := by
  have hrun : workOn (onDisk (Disk.write path text)) desk =
      ((Disk.write path text : StateM Desk (Except DiskError Unit)).run desk).map
        (Except.mapError CommandError.disk) id := rfl
  rw [hrun, run_write]
  cases desk.tree.write path text with
  | error e => rfl
  | ok tree => rfl

theorem workOn_writeSealed (path : String) (file : (Nat → Bytes) → Sealing String) (desk : Desk) :
    workOn (writeSealed path file) desk =
      match (file (Desk.nonces desk.used) 0).1 with
      | .error e => (.error (.audit (.cipher e)), { desk with used := desk.used + 1 })
      | .ok text =>
        match desk.tree.write path text with
        | .error e => (.error (.disk e), { desk with used := desk.used + 1 })
        | .ok tree => (.ok (), { desk with tree := tree, used := desk.used + 1 }) := by
  have hnonces : workOn (liftM (Disk.nonces : StateM Desk (Nat → Bytes))) desk =
      (.ok (Desk.nonces desk.used), { desk with used := desk.used + 1 }) := rfl
  have haudit : ∀ {α : Type} (x : Except AuditError α) (desk : Desk),
      workOn (ofAudit x) desk = (x.mapError .audit, desk) := fun _ _ => rfl
  rw [writeSealed, workOn_bind, hnonces]
  dsimp only
  -- the text is there before the file is opened
  rw [workOn_bind, haudit, Audit.sealing]
  rcases file (Desk.nonces desk.used) 0 with ⟨e | text, n⟩
  · rfl
  · exact workOn_write path text _

variable {path : String} {file : (Nat → Bytes) → Sealing String} {desk : Desk}

theorem tree_of_writeSealed_fails {e : CommandError}
    (h : (workOn (writeSealed path file) desk).1 = .error e) :
    (workOn (writeSealed path file) desk).2.tree = desk.tree := by
  rw [workOn_writeSealed] at h ⊢
  split at h
  · rfl
  · split at h
    · rfl
    · cases h

theorem writeSealed_fails_iff (hpath : ∀ text, ∃ tree, desk.tree.write path text = .ok tree) :
    (∃ e, (workOn (writeSealed path file) desk).1 = .error e) ↔
      ¬ ∃ text n, file (Desk.nonces desk.used) 0 = (.ok text, n) := by
  rw [workOn_writeSealed]
  rcases file (Desk.nonces desk.used) 0 with ⟨e | text, n⟩
  · simp
  · obtain ⟨tree, htree⟩ := hpath text
    simp [htree]

/-- With passwords for keys, a structure is refused if a number in it is out of range, and for
nothing else; and then no file is made or changed. -/
theorem writeStructure_fails_iff (secret shared : String)
    {number openNumber : Int → Except CipherError Int}
    (hnumber : ∀ n, (∃ x, number n = .ok x) ↔ -1 ≤ n ∧ n ≤ 2 ^ 19 - 2)
    {output : String} {d : Structure} {desk : Desk}
    (houtput : desk.tree.entry? output = some .directory)
    (hfree : desk.tree.entry? (output ++ "/" ++ structureName) ≠ some .directory)
    (hfiles : ∀ t ∈ d.occurrences, t.mark.file.length < 2 ^ 32)
    (hshort : ∀ e n, Sealing.sealStructure (Desk.nonces desk.used)
        (Suite.ofPasswords secret shared number openNumber).toCiphers d 0 = (.ok e, n) →
      (Structure.toText (Table.ofEntries (Sealing.handedOver e))).length < 2 ^ 32) :
    let run := workOn (writeStructure (Suite.ofPasswords secret shared number openNumber) output d) desk
    ((∃ e, run.1 = .error e) ↔ ∃ t ∈ d.occurrences,
      ∃ n ∈ [t.mark.pos, t.mark.depth, t.mark.order, t.mark.flow], ¬ (-1 ≤ n ∧ n ≤ 2 ^ 19 - 2)) ∧
    ∀ e, run.1 = .error e → run.2.tree = desk.tree := by
  intro run
  have hrange : ∀ n, (∃ x, number n = .ok x) ↔ Ope.plainNumbers.has n = true := fun n =>
    (hnumber n).trans Ope.has_plainNumbers.symm
  have htotal := Suite.total_ofPasswords secret shared openNumber (fun n => (hrange n).mpr)
    d.sealedNames
  have hfile := Sealing.exists_structureFile_iff htotal (fun n x hx => (hrange n).mp ⟨x, hx⟩)
    (fun nonce x hx => Suite.sealText_ofPasswords secret shared openNumber nonce hx) hfiles hshort
  refine ⟨?_, fun e he => tree_of_writeSealed_fails he⟩
  have hwrite := FileTree.exists_write (by decide) (by decide) houtput hfree
  refine (writeSealed_fails_iff hwrite).trans ((not_congr hfile).trans ?_)
  simp only [Token.inRange_iff, not_forall, exists_prop]

def nested (order : Int) : Structure :=
  let mark (kind : String) (pos order flow : Int) : Mark :=
    ⟨kind, .number 1, pos, 0, order, flow, .number 0, "m.php", "m.php"⟩
  [("m.php", [("VAR1", [.jump 0 (mark "FUNC_CALL" 10 0 (-1)) "FUNC1"
    [.jump 1 (mark "FUNC_CALL" 17 0 0) "FUNC2" [.site 2 (mark "INPUT" 20 order 0)]]])])]

def oldDesk : Desk := { tree := ({} : FileTree).makeFile ["out", structureName] [] }

theorem short_nested {e : Structure} {n : Nat} (h : Sealing.sealStructure (Desk.nonces oldDesk.used)
      (Suite.ofPasswords "secret" "shared" sealInRange openInRange).toCiphers (nested (2 ^ 19 - 2)) 0 =
        (.ok e, n)) : (Structure.toText (Table.ofEntries (Sealing.handedOver e))).length < 2 ^ 32 := by
  have happart : Sealing.SealedApart
      (Suite.ofPasswords "secret" "shared" sealInRange openInRange).toCiphers (nested (2 ^ 19 - 2)) :=
    ⟨by simp [nested, Table.names], by simp [nested, Table.names]⟩
  have hd : (nested (2 ^ 19 - 2)).Distinct := by decide +kernel
  have hfits : ∀ t ∈ (nested (2 ^ 19 - 2)).occurrences,
      t.Fitting fun s => (Bytes.ofText s).length < Cipher.namePadding := by decide +kernel
  have hnonces : ∀ n, (Desk.nonces oldDesk.used n).length = 16 := fun n => Bytes.length_ofNat 16 _
  obtain ⟨_, _, hover⟩ := Sealing.sealStructure_handedOver happart hd (by decide) h
  rw [hover]
  exact Sealing.length_sealed_lt
    (Suite.terse_ofPasswords _ _ _ fun _ _ hm h => length_sealInRange hm h) hnonces
    (Sealing.sealStructure_sealedTo happart hd h) hfits (by decide)

/-- The last number in range deep in the arguments is sealed; one more is refused, and the file
from before stays. -/
theorem writeStructure_fails_iff_nested :
    let s := Suite.ofPasswords "secret" "shared" sealInRange openInRange
    (∀ n, (∃ x, sealInRange n = .ok x) ↔ -1 ≤ n ∧ n ≤ 2 ^ 19 - 2) ∧
    oldDesk.tree.entry? "out" = some .directory ∧
    (¬ ∃ e, (workOn (writeStructure s "out" (nested (2 ^ 19 - 2))) oldDesk).1 = .error e) ∧
    (∃ e, (workOn (writeStructure s "out" (nested (2 ^ 19 - 1))) oldDesk).1 = .error e) ∧
    (workOn (writeStructure s "out" (nested (2 ^ 19 - 1))) oldDesk).2.tree = oldDesk.tree := by
  intro s
  have houtput : oldDesk.tree.entry? "out" = some .directory := by decide +kernel
  have hfree : oldDesk.tree.entry? ("out" ++ "/" ++ structureName) ≠ some .directory := by
    decide +kernel
  have hout : ¬ ∀ t ∈ (nested (2 ^ 19 - 1)).occurrences, t.InRange := by decide +kernel
  have hnone : ∀ e n, Sealing.sealStructure (Desk.nonces oldDesk.used) s.toCiphers
      (nested (2 ^ 19 - 1)) 0 = (.ok e, n) →
      (Structure.toText (Table.ofEntries (Sealing.handedOver e))).length < 2 ^ 32 := fun e n h =>
    absurd (Sealing.inRange_of_sealStructure inRange_of_sealInRange h) hout
  obtain ⟨hsealed, _⟩ := writeStructure_fails_iff "secret" "shared" sealInRange_iff houtput hfree
    (by decide +kernel) fun e n h => short_nested h
  obtain ⟨hrefused, hkept⟩ :=
    writeStructure_fails_iff "secret" "shared" sealInRange_iff houtput hfree (by decide +kernel) hnone
  obtain ⟨e, he⟩ := hrefused.mpr (by decide +kernel)
  exact ⟨sealInRange_iff, houtput, fun h => absurd (hsealed.mp h) (by decide +kernel), ⟨e, he⟩,
    hkept e he⟩

end Command

end MaskedTaint
