import MaskedTaint.Proofs.Cipher.Opening
import MaskedTaint.Proofs.Sealing.Correspondence
import MaskedTaint.Proofs.Wire.Records
import MaskedTaint.Sealing.Report

/-! Opening what was sealed. A finding of a sealed token opens to what the finding of the token
itself says, if all kinds that stand in it can be opened: of the special kinds only inputs and
calls can. -/

theorem Except.bind_eq_ok_iff {ε α β : Type} {x : Except ε α} {f : α → Except ε β} {b : β} :
    (x >>= f) = .ok b ↔ ∃ a, x = .ok a ∧ f a = .ok b := by
  cases x with
  | error e | ok a => simp [bind, Except.bind]

theorem Except.bind_ok {ε α β : Type} {x : Except ε α} {f : α → Except ε β} {a : α} {b : β}
    (hx : x = .ok a) (hf : f a = .ok b) : (x >>= f) = .ok b :=
  Except.bind_eq_ok_iff.mpr ⟨a, hx, hf⟩

namespace MaskedTaint

/-! ### Suites that open what they seal -/

namespace Base64

theorem escape_digit : ∀ n < 64, Json.escape (digit n) = [digit n] := by decide

theorem quote_encode (bs : Bytes) : Json.quote (encode bs) = "\"" ++ encode bs ++ "\"" := by
  have hplain : ∀ cs : List Char, (∀ c ∈ cs, c = '=' ∨ ∃ n < 64, c = digit n) →
      cs.flatMap Json.escape = cs := by
    intro cs hcs
    induction cs with
    | nil => rfl
    | cons c cs ih =>
      have hc : Json.escape c = [c] := by
        rcases hcs c (by simp) with rfl | ⟨n, hn, rfl⟩
        · rfl
        · exact escape_digit n hn
      rw [List.flatMap_cons, hc, ih fun c hc => hcs c (by simp [hc]), List.singleton_append]
  rw [Json.quote, encode, String.toList_ofList, hplain _ fun c hc => mem_encodeChars hc]

end Base64

theorem Sealing.asFile_encode (bs : Bytes) : asFile (Base64.encode bs) = "\"" ++ Base64.encode bs ++ "\"" := by
  rw [← Base64.quote_encode]
  simp [asFile, Json.render, Json.write]

theorem Sealing.openText_sealWhole {key nonce : Bytes} {x y : String} (hnonce : nonce.length = 16)
    (hx : AsciiText x) (h : Cipher.sealWhole key nonce x = .ok y) :
    Cipher.openText key (asFile y) = .ok x := by
  refine Cipher.openText_of_decode hx hnonce h ?_
  obtain ⟨-, _, -, rfl⟩ := Cipher.sealWhole_eq_ok_iff.mp h
  rw [asFile_encode, Base64.decode_quoted, Base64.decode_encode]

namespace Suite

def OpensTexts (s : Suite) : Prop :=
  ∀ nonce x y, nonce.length = 16 → AsciiText x → s.sealText nonce x = .ok y →
    s.openText (Sealing.asFile y) = .ok x

structure Inverts (s : Suite) : Prop where
  name : ∀ x y, s.name x = .ok y → s.openName y = .ok x
  number : ∀ m n, s.number m = .ok n → s.openNumber n = .ok m
  text : s.OpensTexts

def Rejects (s : Suite) : Prop := ∀ (p : Special) (x : String), s.openName (s.label p.name) ≠ .ok x

theorem inverts_ofKeys (keys : Keys) : (ofKeys keys).Inverts where
  name _ _ h := Cipher.openName_sealName h
  number _ _ h := Cipher.openNumber_sealNumber h
  text _ _ _ hnonce hx h := Sealing.openText_sealWhole hnonce hx h

theorem rejects_ofKeys (keys : Keys) : (ofKeys keys).Rejects := by
  intro p x h
  have hopen : Cipher.openName keys.secret
      (Base64.encode (Cipher.labelBytes keys.shared p.name)) = .ok x := h
  rw [Cipher.openName, Cipher.decodeBase64_encode] at hopen
  obtain ⟨bs, hbs, hopen⟩ := Except.bind_eq_ok_iff.mp hopen
  obtain rfl := Except.ok.inj hbs
  unfold Cipher.openNameBytes at hopen
  obtain ⟨k, _, hopen⟩ := Except.bind_eq_ok_iff.mp hopen
  split at hopen
  · cases hopen
  · rename_i padded hpadded
    obtain ⟨plain, hplain, _⟩ := Except.bind_eq_ok_iff.mp hopen
    have hsealed := Siv.length_of_unwrap? hpadded
    rw [Bytes.dropLast, List.length_take, Cipher.length_labelBytes] at hsealed
    unfold Cipher.unpad at hplain
    split at hplain
    · cases hplain
    · rw [hsealed, if_pos (by decide)] at hplain
      cases hplain

end Suite

namespace Ciphers

structure SealsPlace (c : Ciphers) (m m' : Mark) : Prop where
  line : ∃ s, c.name m.line.render = .ok s ∧ m'.line = .text s
  pos : c.number m.pos = .ok m'.pos
  file : ∃ nonce, nonce.length = 16 ∧ c.file nonce m.file = .ok m'.file

end Ciphers

/-! ### Findings in one form -/

namespace Finding

mutual

def normal : Finding → Finding
  | mk kind line pos file target none => mk kind (.text line.render) pos file target none
  | mk kind line pos file target (some []) => mk kind (.text line.render) pos file target none
  | mk kind line pos file target (some (a :: args)) =>
    mk kind (.text line.render) pos file target (some (normal a :: normalAll args))

def normalAll : List Finding → List Finding
  | [] => []
  | f :: fs => normal f :: normalAll fs

end

theorem normalAll_eq_map (fs : List Finding) : normalAll fs = fs.map normal := by
  induction fs with
  | nil => rfl
  | cons f fs ih => rw [normalAll, ih, List.map_cons]

mutual

theorem normal_ofWritten : ∀ t : Token, (ofWritten t).normal = (ofToken t).normal
  | .site i m => rfl
  | .jump i m target [] => rfl
  | .jump i m target (a :: args) => by
    simp only [ofWritten, ofWrittenAll, ofToken, normal, normal_ofWritten a,
      normalAll_ofWrittenAll args]

theorem normalAll_ofWrittenAll : ∀ ts : List Token,
    normalAll (ofWrittenAll ts) = normalAll (ofTokens ts)
  | [] => rfl
  | t :: ts => by
    rw [ofWrittenAll, ofTokens, normalAll, normalAll, normal_ofWritten t, normalAll_ofWrittenAll ts]

end

mutual

theorem text_normal : ∀ f : Finding, f.normal.text = f.text
  | mk kind line pos file target none => rfl
  | mk kind line pos file target (some []) => rfl
  | mk kind line pos file target (some (a :: args)) => by
    rw [normal, text, text]
    dsimp only
    rw [text_normal a, texts_normalAll args]
    rfl

theorem texts_normalAll : ∀ fs : List Finding, texts (normalAll fs) = texts fs
  | [] => rfl
  | f :: fs => by rw [normalAll, texts, texts, text_normal f, texts_normalAll fs]

end

end Finding

/-! ### Sealed tokens -/

namespace Token

mutual

/-- The second token is what the first one is sealed to, wherever it counts. -/
def SealedAs (c : Ciphers) : Token → Token → Prop
  | site _ m, site _ m' => c.SealsKind m.kind m'.kind ∧ c.SealsPlace m m'
  | jump _ m g as, jump _ m' g' as' =>
    m'.kind = c.label m.kind ∧ c.SealsPlace m m' ∧ c.name g = .ok g' ∧ SealedAllAs c as as'
  | _, _ => False

def SealedAllAs (c : Ciphers) : List Token → List Token → Prop
  | [], [] => True
  | t :: ts, t' :: ts' => SealedAs c t t' ∧ SealedAllAs c ts ts'
  | _, _ => False

end

def Opens (t : Token) : Prop :=
  Special.isName t.kind = true → t.kind = Special.input.name ∨ t.kind = Special.call.name

def Openable (t : Token) : Prop := ∀ u ∈ t.occurrences, u.Opens

instance (t : Token) : Decidable t.Opens := inferInstanceAs (Decidable (_ → _))

instance (t : Token) : Decidable t.Openable := inferInstanceAs (Decidable (∀ u ∈ t.occurrences, u.Opens))

/-- A token that can be reported: its names are covered, and its file has a name of characters
that take one byte. -/
structure Reportable (names : List String) (t : Token) : Prop where
  regular : t.Regular
  names : t.names ⊆ names
  file : AsciiText t.mark.file ∧ t.mark.file.length < 2 ^ 32

variable {c : Ciphers}

theorem sealedAllAs_iff {ts ts' : List Token} :
    SealedAllAs c ts ts' ↔ List.Forall₂ (SealedAs c) ts ts' := by
  induction ts generalizing ts' with
  | nil => cases ts' <;> simp [SealedAllAs]
  | cons t ts ih => cases ts' <;> simp [SealedAllAs, ih]

end Token

namespace Ciphers

theorem SealsMark.place {c : Ciphers} {nonce : Bytes} {m m' : Mark} (h : c.SealsMark nonce m m')
    (hnonce : nonce.length = 16) : c.SealsPlace m m' :=
  ⟨h.line, h.pos, nonce, hnonce, h.file⟩

end Ciphers

namespace Sealing

variable {nonces : Nat → Bytes} {c : Ciphers}

mutual

theorem sealedAs_of_sealToken (hnonces : ∀ n, (nonces n).length = 16) : ∀ (t : Token) {t' : Token}
    {n n' : Nat}, sealToken nonces c t n = (.ok t', n') → t.SealedAs c t'
  | .site i m, t', n, n', h => by
    obtain ⟨m', rfl, hk, hm, _⟩ := sealToken_site_iff.mp h
    exact ⟨hk, hm.place (hnonces n)⟩
  | .jump i m g as, t', n, n', h => by
    obtain ⟨m', g', as', rfl, hk, hm, hg, has⟩ := sealToken_jump_iff.mp h
    exact ⟨hk, hm.place (hnonces n), hg, sealedAllAs_of_sealTokens hnonces as has⟩

theorem sealedAllAs_of_sealTokens (hnonces : ∀ n, (nonces n).length = 16) : ∀ (ts : List Token)
    {ts' : List Token} {n n' : Nat}, sealTokens nonces c ts n = (.ok ts', n') →
      Token.SealedAllAs c ts ts'
  | [], ts', n, n', h => by
    obtain ⟨rfl, _⟩ := pure_eq_ok_iff.mp h
    trivial
  | t :: ts, us, n, n', h => by
    obtain ⟨t', ts', k, rfl, ht, hts⟩ := sealTokens_cons_iff.mp h
    exact ⟨sealedAs_of_sealToken hnonces t ht, sealedAllAs_of_sealTokens hnonces ts hts⟩

end

end Sealing

/-! ### Opening findings -/

/-- Inputs and calls have different labels, and no name is sealed to one of them. -/
structure Ciphers.TellsKinds (c : Ciphers) (names : List String) : Prop where
  labels : c.label Special.input.name ≠ c.label Special.call.name
  apart : ∀ s ∈ names, c.name s ≠ .ok (c.label Special.input.name) ∧
    c.name s ≠ .ok (c.label Special.call.name)

theorem Ciphers.Distinguishes.tellsKinds {c : Ciphers} {names : List String}
    (h : c.Distinguishes names) : c.TellsKinds names where
  labels heq := absurd (h.special_inj heq) (by decide)
  apart s hs := ⟨h.apart s hs .input, h.apart s hs .call⟩

namespace Finding

variable {s : Suite} {names : List String}

theorem openKind_sealed (hs : s.Inverts) (hc : s.TellsKinds names) {k k' : String}
    (hk : Special.asName k ⊆ names) (h : s.SealsKind k k')
    (ho : Special.isName k = true → k = Special.input.name ∨ k = Special.call.name) :
    openKind s k' = .ok k := by
  unfold Ciphers.SealsKind at h
  unfold openKind
  by_cases hname : Special.isName k = true
  · rw [if_pos hname] at h
    rcases ho hname with rfl | rfl
    · rw [if_pos h]
    · have hne : k' ≠ s.label Special.input.name := fun hk' => hc.labels (hk'.symm.trans h)
      rw [if_neg hne, if_pos h]
  · rw [if_neg hname] at h
    have hmem := Sealing.mem_of_asName hk hname
    obtain ⟨hinput, hcall⟩ := hc.apart k hmem
    have hinput' : k' ≠ s.label Special.input.name := fun hk' => hinput (hk' ▸ h)
    have hcall' : k' ≠ s.label Special.call.name := fun hk' => hcall (hk' ▸ h)
    rw [if_neg hinput', if_neg hcall']
    exact hs.name k k' h

theorem opens_of_openKind (hr : s.Rejects) (hc : s.Distinguishes names) {k k' x : String}
    (h : s.SealsKind k k') (hx : openKind s k' = .ok x) :
    Special.isName k = true → k = Special.input.name ∨ k = Special.call.name := by
  intro hname
  unfold Ciphers.SealsKind at h
  rw [if_pos hname] at h
  obtain ⟨p, rfl⟩ := Ciphers.exists_special hname
  unfold openKind at hx
  split at hx
  · rename_i hp
    exact .inl (hc.special_inj (h.symm.trans hp))
  · split at hx
    · rename_i hp
      exact .inr (hc.special_inj (h.symm.trans hp))
    · exact absurd (h ▸ hx) (hr p x)

theorem openFile_sealed {m m' : Mark} (h : s.SealsPlace m m')
    (hfile : AsciiText m.file ∧ m.file.length < 2 ^ 32) : s.openFile m'.file = .ok m.file := by
  obtain ⟨nonce, hnonce, hseal⟩ := h.file
  exact Cipher.openText_of_decode hfile.1 hnonce hseal rfl

theorem openLine_sealed (hs : s.Inverts) {m m' : Mark} (h : s.SealsPlace m m') :
    s.openName m'.line.render = .ok m.line.render := by
  obtain ⟨x, hx, hline⟩ := h.line
  rw [hline]
  exact hs.name _ _ hx

theorem asName_subset {t : Token} (h : t.Reportable names) : Special.asName t.kind ⊆ names := by
  obtain ⟨hreg, hnames, _⟩ := h
  cases t with
  | site i m => exact fun x hx => hnames (List.mem_append_left _ hx)
  | jump i m g as =>
    have hcall : m.kind = Special.call.name := hreg
    simp only [Token.kind, Token.mark, hcall]
    exact List.nil_subset _

theorem sealsKind_of_sealedAs {o t : Token} (ho : o.Regular) (h : o.SealedAs s.toCiphers t) :
    s.SealsKind o.kind t.kind ∧ s.SealsPlace o.mark t.mark := by
  cases o with
  | site i m =>
    cases t with
    | site j m' => exact h
    | jump j m' g' as' => exact h.elim
  | jump i m g as =>
    cases t with
    | site j m' => exact h.elim
    | jump j m' g' as' =>
      obtain ⟨hkind, hplace, _⟩ := h
      have hcall : m.kind = Special.call.name := ho
      refine ⟨?_, hplace⟩
      simp only [Token.kind, Token.mark, hkind, hcall]
      exact s.sealsKind_special .call

theorem opened_head (hs : s.Inverts) (hc : s.TellsKinds names) {o t : Token}
    (h : o.SealedAs s.toCiphers t) (hr : ∀ u ∈ o.occurrences, u.Reportable names) (hopens : o.Openable) :
    openKind s t.kind = .ok o.kind ∧ s.openName t.mark.line.render = .ok o.mark.line.render ∧
      s.openNumber t.pos = .ok o.pos ∧ s.openFile t.mark.file = .ok o.mark.file := by
  have hself := Token.mem_occurrences_self o
  have ho := hr o hself
  obtain ⟨hkind, hplace⟩ := sealsKind_of_sealedAs ho.regular h
  exact ⟨openKind_sealed hs hc (asName_subset ho) hkind (hopens o hself), openLine_sealed hs hplace,
    hs.number _ _ hplace.pos, openFile_sealed hplace ho.file⟩

mutual

theorem opened_sealed (hs : s.Inverts) (hc : s.TellsKinds names) : ∀ (o t : Token),
    o.SealedAs s.toCiphers t → (∀ u ∈ o.occurrences, u.Reportable names) → o.Openable →
      (ofToken t).opened s = .ok (ofToken o).normal
  | .site i m, .site j m', h, hr, ho => by
    obtain ⟨hkind, hline, hpos, hfile⟩ := opened_head hs hc h hr ho
    exact Except.bind_ok hkind (Except.bind_ok hline (Except.bind_ok hpos (Except.bind_ok hfile rfl)))
  | .site i m, .jump j m' g' as', h, _, _ => h.elim
  | .jump i m g as, .site j m', h, _, _ => h.elim
  | .jump i m g [], .jump j m' g' as', h, hr, ho => by
    obtain ⟨hkind, hline, hpos, hfile⟩ := opened_head hs hc h hr ho
    obtain ⟨_, _, hg, has⟩ := h
    cases as' with
    | nil =>
      exact Except.bind_ok hkind (Except.bind_ok hline (Except.bind_ok hpos (Except.bind_ok hfile
        (Except.bind_ok (hs.name _ _ hg) rfl))))
    | cons a' as' => exact has.elim
  | .jump i m g (a :: as), .jump j m' g' as', h, hr, ho => by
    obtain ⟨hkind, hline, hpos, hfile⟩ := opened_head hs hc h hr ho
    obtain ⟨_, _, hg, has⟩ := h
    cases as' with
    | nil => exact has.elim
    | cons a' as' =>
      have hin : ∀ u ∈ Token.occurrencesIn (a :: as), u ∈ (Token.jump i m g (a :: as)).occurrences :=
        fun u hu => List.mem_cons_of_mem _ hu
      have hargs := openedAll_sealed hs hc (a :: as) (a' :: as') has (fun u hu => hr u (hin u hu))
        fun u hu => ho u (hin u hu)
      rw [ofTokens, ofTokens, normalAll] at hargs
      exact Except.bind_ok hkind (Except.bind_ok hline (Except.bind_ok hpos (Except.bind_ok hfile
        (Except.bind_ok (hs.name _ _ hg) (Except.bind_ok hargs rfl)))))

theorem openedAll_sealed (hs : s.Inverts) (hc : s.TellsKinds names) : ∀ (os ts : List Token),
    Token.SealedAllAs s.toCiphers os ts → (∀ u ∈ Token.occurrencesIn os, u.Reportable names) →
      (∀ u ∈ Token.occurrencesIn os, u.Opens) →
      openedAll s (ofTokens ts) = .ok (normalAll (ofTokens os))
  | [], [], _, _, _ => rfl
  | [], t :: ts, h, _, _ => h.elim
  | o :: os, [], h, _, _ => h.elim
  | o :: os, t :: ts, h, hr, ho => by
    have hfirst := opened_sealed hs hc o t h.1 (fun u hu => hr u (List.mem_append_left _ hu))
      fun u hu => ho u (List.mem_append_left _ hu)
    have hrest := openedAll_sealed hs hc os ts h.2 (fun u hu => hr u (List.mem_append_right _ hu))
      fun u hu => ho u (List.mem_append_right _ hu)
    rw [ofTokens, ofTokens, normalAll, openedAll, hfirst, hrest]
    rfl

end

mutual

theorem openable_of_opened (hr : s.Rejects) (hc : s.Distinguishes names) : ∀ (o t : Token) (f : Finding),
    o.SealedAs s.toCiphers t → (∀ u ∈ o.occurrences, u.Regular) → (ofToken t).opened s = .ok f →
      o.Openable
  | .site i m, .site j m', f, h, hreg, hf => by
    obtain ⟨k, hk, _⟩ := Except.bind_eq_ok_iff.mp hf
    intro u hu
    rw [Token.occurrences, List.mem_singleton] at hu
    exact hu ▸ opens_of_openKind hr hc h.1 hk
  | .site i m, .jump j m' g' as', f, h, _, _ => h.elim
  | .jump i m g as, .site j m', f, h, _, _ => h.elim
  | .jump i m g as, .jump j m' g' as', f, h, hreg, hf => by
    obtain ⟨hkind, _⟩ := sealsKind_of_sealedAs (hreg _ (Token.mem_occurrences_self _)) h
    have hopened : ∃ k, openKind s m'.kind = .ok k ∧ ∀ u ∈ Token.occurrencesIn as, u.Opens := by
      cases as' with
      | nil =>
        obtain ⟨k, hk, _⟩ := Except.bind_eq_ok_iff.mp hf
        cases as with
        | nil => exact ⟨k, hk, by simp [Token.occurrencesIn]⟩
        | cons a as => exact h.2.2.2.elim
      | cons a' as' =>
        obtain ⟨k, hk, hf⟩ := Except.bind_eq_ok_iff.mp hf
        obtain ⟨_, _, hf⟩ := Except.bind_eq_ok_iff.mp hf
        obtain ⟨_, _, hf⟩ := Except.bind_eq_ok_iff.mp hf
        obtain ⟨_, _, hf⟩ := Except.bind_eq_ok_iff.mp hf
        obtain ⟨_, _, hf⟩ := Except.bind_eq_ok_iff.mp hf
        obtain ⟨fs, hfs, _⟩ := Except.bind_eq_ok_iff.mp hf
        exact ⟨k, hk, openable_of_openedAll hr hc as (a' :: as') fs h.2.2.2
          (fun u hu => hreg u (List.mem_cons_of_mem _ hu)) hfs⟩
    obtain ⟨k, hk, hargs⟩ := hopened
    intro u hu
    rcases List.mem_cons.mp hu with rfl | hu
    · exact opens_of_openKind hr hc hkind hk
    · exact hargs u hu

theorem openable_of_openedAll (hr : s.Rejects) (hc : s.Distinguishes names) :
    ∀ (os ts : List Token) (fs : List Finding), Token.SealedAllAs s.toCiphers os ts →
      (∀ u ∈ Token.occurrencesIn os, u.Regular) → openedAll s (ofTokens ts) = .ok fs →
      ∀ u ∈ Token.occurrencesIn os, u.Opens
  | [], ts, fs, _, _, _ => by simp [Token.occurrencesIn]
  | o :: os, [], fs, h, _, _ => h.elim
  | o :: os, t :: ts, fs, h, hreg, hfs => by
    rw [ofTokens, openedAll] at hfs
    obtain ⟨f, hf, hfs⟩ := Except.bind_eq_ok_iff.mp hfs
    obtain ⟨gs, hgs, _⟩ := Except.bind_eq_ok_iff.mp hfs
    have hfirst := openable_of_opened hr hc o t f h.1 (fun u hu => hreg u (List.mem_append_left _ hu)) hf
    have hrest := openable_of_openedAll hr hc os ts gs h.2
      (fun u hu => hreg u (List.mem_append_right _ hu)) hgs
    intro u hu
    rcases List.mem_append.mp hu with hu | hu
    · exact hfirst u hu
    · exact hrest u hu

end

end Finding

end MaskedTaint
