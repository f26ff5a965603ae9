import Mathlib.Data.Nat.Digits.Defs
import MaskedTaint.Proofs.Sealing.Detection
import MaskedTaint.Proofs.Sealing.Handover
import MaskedTaint.Proofs.Wire.Lengths

/-! Delivery: the auditor reads from the file exactly what the owner sealed, scope by scope, list
by list and token by token, in the same order. -/

namespace MaskedTaint

namespace Token

variable (nonces : Nat → Bytes) (c : Ciphers)

mutual

/-- Every field is sealed, those of the arguments included; each file name takes one of the
nonces. -/
def SealedTo : Token → Token → Prop
  | site _ m, site _ m' => c.SealsKind m.kind m'.kind ∧ ∃ n, c.SealsMark (nonces n) m m'
  | jump _ m g as, jump _ m' g' as' => m'.kind = c.label m.kind ∧
      (∃ n, c.SealsMark (nonces n) m m') ∧ c.name g = .ok g' ∧ SealedAllTo as as'
  | _, _ => False

def SealedAllTo : List Token → List Token → Prop
  | [], [] => True
  | t :: ts, t' :: ts' => SealedTo t t' ∧ SealedAllTo ts ts'
  | _, _ => False

end

end Token

namespace Structure

variable (nonces : Nat → Bytes) (c : Ciphers)

def ListsSealedTo : Scope → Scope → Prop :=
  List.Forall₂ fun l l' => (∃ k, c.SealsKind l.1 k ∧ l'.1 = c.label k) ∧
    Token.SealedAllTo nonces c l.2 l'.2

/-- A structure and what it is sealed to: scopes in the same order, each under its sealed name. -/
def SealedTo : Structure → Structure → Prop :=
  List.Forall₂ fun s s' => (∃ x, c.name s.1 = .ok x ∧ s'.1 = c.label x) ∧
    ListsSealedTo nonces c s.2 s'.2

end Structure

/-! ### Sealing seals every field -/

namespace Sealing

variable {nonces : Nat → Bytes} {c : Ciphers} {d : Structure}

mutual

theorem sealedTo_of_sealToken : ∀ (t : Token) {t' : Token} {n n' : Nat},
    sealToken nonces c t n = (.ok t', n') → t.SealedTo nonces c t'
  | .site i m, t', n, n', h => by
    obtain ⟨m', rfl, hkind, hmark, _⟩ := sealToken_site_iff.mp h
    exact ⟨hkind, n, hmark⟩
  | .jump i m g as, t', n, n', h => by
    obtain ⟨m', g', as', rfl, hkind, hmark, htarget, hargs⟩ := sealToken_jump_iff.mp h
    exact ⟨hkind, ⟨n, hmark⟩, htarget, sealedAllTo_of_sealTokens as hargs⟩

theorem sealedAllTo_of_sealTokens : ∀ (ts : List Token) {ts' : List Token} {n n' : Nat},
    sealTokens nonces c ts n = (.ok ts', n') → Token.SealedAllTo nonces c ts ts'
  | [], ts', n, n', h => by
    obtain ⟨rfl, _⟩ := pure_eq_ok_iff.mp h
    trivial
  | t :: ts, ts', n, n', h => by
    obtain ⟨t', us, k, rfl, hfirst, hrest⟩ := sealTokens_cons_iff.mp h
    exact ⟨sealedTo_of_sealToken t hfirst, sealedAllTo_of_sealTokens ts hrest⟩

end

variable {n : Nat} {e : Structure}

theorem sealLists_sealedTo {ls ls' : List (String × List Token)} {n' : Nat}
    (h : sealLists nonces c ls n = (.ok ls', n')) : Structure.ListsSealedTo nonces c ls ls' :=
  (sealLists_forall₂ h).imp fun l _ ⟨hk, _, _, hts⟩ => ⟨hk, sealedAllTo_of_sealTokens l.2 hts⟩

theorem sealScopes_sealedTo (hc : SealedApart c d) (hd : d.Distinct) {es es' : List (String × Scope)}
    {n' : Nat} (hsub : es ⊆ d) (h : sealScopes nonces c es n = (.ok es', n')) :
    Structure.SealedTo nonces c es es' := by
  refine ((List.forall₂_and_left _ _).mpr ⟨fun _ he => hsub he, sealScopes_forall₂ h⟩).imp ?_
  rintro e e' ⟨he, hname, ls, _, _, hs, hls⟩
  rw [Table.ofEntries_of_nodup (nodup_sealLists hc hd he hls)] at hs
  exact ⟨hname, hs ▸ sealLists_sealedTo hls⟩

theorem sealStructure_sealedTo (hc : SealedApart c d) (hd : d.Distinct)
    (h : sealStructure nonces c d 0 = (.ok e, n)) : d.SealedTo nonces c e := by
  obtain ⟨es, _, hes, hpure⟩ := Act.bind_eq_ok_iff.mp h
  obtain ⟨rfl, rfl⟩ := pure_eq_ok_iff.mp hpure
  rw [Table.ofEntries_of_nodup (nodup_sealScopes hc hd hes)]
  exact sealScopes_sealedTo hc hd (List.Subset.refl _) hes

mutual

theorem sealedTo_numbered : ∀ (t t' : Token) (n : Nat), t.SealedTo nonces c t' →
    t.SealedTo nonces c (t'.numbered n).1
  | .site i m, t', n, h => by
    cases t' with
    | site i' m' => exact h
    | jump i' m' g' as' => exact h.elim
  | .jump i m g as, t', n, h => by
    cases t' with
    | site i' m' => exact h.elim
    | jump i' m' g' as' =>
      obtain ⟨hkind, hmark, htarget, hargs⟩ := h
      exact ⟨hkind, hmark, htarget, sealedAllTo_numbered as as' n hargs⟩

theorem sealedAllTo_numbered : ∀ (ts ts' : List Token) (n : Nat), Token.SealedAllTo nonces c ts ts' →
    Token.SealedAllTo nonces c ts (Token.numberedAll n ts').1
  | [], ts', n, h => by
    cases ts' with
    | nil => exact h
    | cons t' ts' => exact h.elim
  | t :: ts, ts', n, h => by
    cases ts' with
    | nil => exact h.elim
    | cons t' ts' => exact ⟨sealedTo_numbered t t' n h.1, sealedAllTo_numbered ts ts' _ h.2⟩

end

theorem listsSealedTo_numbered {ls ls' : Scope} (h : Structure.ListsSealedTo nonces c ls ls') (n : Nat) :
    Structure.ListsSealedTo nonces c ls (Structure.numberedLists n ls').1 := by
  induction h generalizing n with
  | nil => exact .nil
  | @cons l l' _ _ hl _ ih => exact .cons ⟨hl.1, sealedAllTo_numbered l.2 l'.2 n hl.2⟩ (ih _)

theorem scopesSealedTo_numbered (h : d.SealedTo nonces c e) (n : Nat) :
    d.SealedTo nonces c (Structure.numberedScopes n e).1 := by
  induction h generalizing n with
  | nil => exact .nil
  | cons hs _ ih => exact .cons ⟨hs.1, listsSealedTo_numbered hs.2 n⟩ (ih _)

mutual

theorem length_occurrences_sealedTo : ∀ (t t' : Token), t.SealedTo nonces c t' →
    t'.occurrences.length = t.occurrences.length
  | .site i m, t', h => by
    cases t' with
    | site i' m' => rfl
    | jump i' m' g' as' => exact h.elim
  | .jump i m g as, t', h => by
    cases t' with
    | site i' m' => exact h.elim
    | jump i' m' g' as' =>
      rw [Token.occurrences, Token.occurrences, List.length_cons, List.length_cons,
        length_occurrencesIn_sealedTo as as' h.2.2.2]

theorem length_occurrencesIn_sealedTo : ∀ (ts ts' : List Token), Token.SealedAllTo nonces c ts ts' →
    (Token.occurrencesIn ts').length = (Token.occurrencesIn ts).length
  | [], ts', h => by
    cases ts' with
    | nil => rfl
    | cons t' ts' => exact h.elim
  | t :: ts, ts', h => by
    cases ts' with
    | nil => exact h.elim
    | cons t' ts' =>
      rw [Token.occurrencesIn, Token.occurrencesIn, List.length_append, List.length_append,
        length_occurrences_sealedTo t t' h.1, length_occurrencesIn_sealedTo ts ts' h.2]

end

theorem size_sealedTo (h : d.SealedTo nonces c e) : e.length = d.length ∧
    (e.map fun s => s.2.length).sum = (d.map fun s => s.2.length).sum ∧
    e.occurrences.length = d.occurrences.length := by
  have hlists : ∀ {ls ls' : Scope}, Structure.ListsSealedTo nonces c ls ls' →
      (ls'.flatMap fun l => Token.occurrencesIn l.2).length =
        (ls.flatMap fun l => Token.occurrencesIn l.2).length := by
    intro ls ls' hls
    induction hls with
    | nil => rfl
    | @cons l l' _ _ hl _ ih =>
      rw [List.flatMap_cons, List.flatMap_cons, List.length_append, List.length_append, ih,
        length_occurrencesIn_sealedTo l.2 l'.2 hl.2]
  induction h with
  | nil => exact ⟨rfl, rfl, rfl⟩
  | @cons s s' d e hs _ ih =>
    obtain ⟨hlength, hsum, hoccurrences⟩ := ih
    have hscope : s'.2.length = s.2.length := hs.2.length_eq.symm
    simp only [Structure.occurrences, List.length_cons, List.map_cons, List.sum_cons,
      List.flatMap_cons, List.length_append] at hoccurrences ⊢
    rw [hlength, hsum, hoccurrences, hscope, hlists hs.2]
    exact ⟨rfl, rfl, rfl⟩

end Sealing

/-! ### Sealed texts are short -/

/-- Labels are short, and so is what names with `P` and numbers in range are sealed to. -/
structure Ciphers.Terse (c : Ciphers) (P : String → Prop) : Prop where
  label : ∀ s, (c.label s).length = 88
  name : ∀ s x, P s → c.name s = .ok x → x.length = 88
  number : ∀ m n, Ope.plainNumbers.has m = true → c.number m = .ok n → (toString n).length ≤ 88

def Token.Fitting (P : String → Prop) (t : Token) : Prop :=
  (∀ s ∈ t.names, P s) ∧ t.InRange ∧ (Cipher.pad 16 (Cipher.textBytes t.mark.file)).length = 16

instance (P : String → Prop) [DecidablePred P] (t : Token) : Decidable (t.Fitting P) :=
  inferInstanceAs (Decidable (_ ∧ _))

namespace Sealing

variable {nonces : Nat → Bytes} {c : Ciphers} {P : String → Prop}

theorem length_kind (hc : c.Terse P) {k k' : String} (hk : ∀ s ∈ Special.asName k, P s)
    (h : c.SealsKind k k') : k'.length = 88 := by
  unfold Ciphers.SealsKind at h
  split at h
  · rw [h, hc.label]
  · rename_i hname
    exact hc.name k k' (hk k (by simp [Special.asName, hname])) h

theorem length_file {nonce : Bytes} {x y : String} (hnonce : nonce.length = 16)
    (hx : (Cipher.pad 16 (Cipher.textBytes x)).length = 16) (h : c.file nonce x = .ok y) :
    y.length = 64 := by
  obtain ⟨-, keys, -, rfl⟩ := Cipher.sealWhole_eq_ok_iff.mp h
  obtain ⟨hcoded, htag⟩ := Gcm.length_wrap keys nonce (Cipher.pad 16 (Cipher.textBytes x))
  rw [Base64.length_encode, List.length_append, List.length_append, hcoded, htag, hx, hnonce]

theorem length_mark (hc : c.Terse P) {nonce : Bytes} (hnonce : nonce.length = 16) {t : Token}
    (ht : t.Fitting P) {m : Mark} (h : c.SealsMark nonce t.mark m) :
    ∀ s ∈ [m.line.render, toString m.pos, toString m.depth, toString m.order, toString m.flow,
      m.split.render, m.scope, m.file], s.length ≤ 88 := by
  obtain ⟨hnames, ⟨hpos, hdepth, horder, hflow⟩, hfile⟩ := ht
  obtain ⟨hscope, hline, hsplit⟩ := marks_subset (List.Subset.refl t.names)
  obtain ⟨line, hline', hlinem⟩ := h.line
  obtain ⟨split, hsplit', hsplitm⟩ := h.split
  have h₁ := hc.number _ _ hpos h.pos
  have h₂ := hc.number _ _ hdepth h.depth
  have h₃ := hc.number _ _ horder h.order
  have h₄ := hc.number _ _ hflow h.flow
  have h₅ := length_file hnonce hfile h.file
  have h₆ := hc.name _ _ (hnames _ hline) hline'
  have h₇ := hc.name _ _ (hnames _ hsplit) hsplit'
  have h₈ := hc.name _ _ (hnames _ hscope) h.scope
  rw [hlinem, hsplitm]
  simp only [Label.render, List.forall_mem_cons, List.not_mem_nil, false_imp_iff, implies_true,
    and_true]
  omega

mutual

theorem brief_sealedTo (hc : c.Terse P) (hnonces : ∀ n, (nonces n).length = 16) :
    ∀ (t t' : Token), (∀ u ∈ t.occurrences, u.Fitting P) → t.SealedTo nonces c t' → t'.Brief 88
  | .site i m, t', hfits, h => by
    cases t' with
    | jump i' m' g' as' => exact h.elim
    | site i' m' =>
      obtain ⟨hkind, n, hmark⟩ := h
      have hself := hfits (.site i m) (Token.mem_occurrences_self _)
      have hrest := length_mark hc (hnonces n) hself hmark
      intro u hu s hs
      rw [Token.occurrences, List.mem_singleton] at hu
      subst hu
      rcases List.mem_cons.mp hs with rfl | hs
      · exact (length_kind hc (fun s hs => hself.1 s (List.mem_append_left _ hs)) hkind).le
      · exact hrest s hs
  | .jump i m g as, t', hfits, h => by
    cases t' with
    | site i' m' => exact h.elim
    | jump i' m' g' as' =>
      obtain ⟨hkind, ⟨n, hmark⟩, htarget, hargs⟩ := h
      have hself := hfits (.jump i m g as) (Token.mem_occurrences_self _)
      have hrest := length_mark hc (hnonces n) hself hmark
      have hkind' : m'.kind.length ≤ 88 := by rw [hkind, hc.label]
      have hbrief := allBrief_sealedTo hc hnonces as as'
        (fun u hu => hfits u (List.mem_cons_of_mem _ hu)) hargs
      intro u hu s hs
      rw [Token.occurrences, List.mem_cons] at hu
      rcases hu with rfl | hu
      · rcases List.mem_cons.mp hs with rfl | hs
        · exact hkind'
        · rcases List.mem_append.mp hs with hs | hs
          · exact hrest s (List.mem_append_left [m'.file] hs)
          · rcases List.mem_cons.mp hs with rfl | hs
            · exact hrest _ (by simp)
            · rw [List.mem_singleton.mp hs]
              exact (hc.name _ _ (hself.1 g (List.mem_append_left _ (List.mem_singleton_self g)))
                htarget).le
      · obtain ⟨a, ha, hu⟩ := Token.mem_occurrencesIn.mp hu
        exact hbrief a ha u hu s hs

theorem allBrief_sealedTo (hc : c.Terse P) (hnonces : ∀ n, (nonces n).length = 16) :
    ∀ (ts ts' : List Token), (∀ u ∈ Token.occurrencesIn ts, u.Fitting P) →
      Token.SealedAllTo nonces c ts ts' → ∀ t' ∈ ts', t'.Brief 88
  | [], ts', _, h => by
    cases ts' with
    | nil => simp
    | cons t' ts' => exact h.elim
  | t :: ts, ts', hfits, h => by
    cases ts' with
    | nil => exact h.elim
    | cons t' ts' =>
      have hhead := brief_sealedTo hc hnonces t t'
        (fun u hu => hfits u (List.mem_append_left _ hu)) h.1
      have htail := allBrief_sealedTo hc hnonces ts ts'
        (fun u hu => hfits u (List.mem_append_right _ hu)) h.2
      exact List.forall_mem_cons.mpr ⟨hhead, htail⟩

end

theorem length_sealed_lt (hc : c.Terse P) (hnonces : ∀ n, (nonces n).length = 16)
    {d e : Structure} (h : d.SealedTo nonces c e) (hfits : ∀ t ∈ d.occurrences, t.Fitting P)
    (hsize : 1 + 2 * d.length + 2 * (d.map fun s => s.2.length).sum +
      30 * d.occurrences.length ≤ 1000) : e.toText.length < 2 ^ 32 := by
  obtain ⟨hlength, hsum, hoccurrences⟩ := size_sealedTo h
  have hbrief : ∀ s ∈ e, s.1.length ≤ 88 ∧ ∀ l ∈ s.2, l.1.length ≤ 88 ∧ ∀ t ∈ l.2, t.Brief 88 := by
    intro s' hs'
    obtain ⟨s, hs, ⟨x, _, hx⟩, hlists⟩ := h.exists_of_mem_right hs'
    refine ⟨(congrArg String.length hx).trans_le (hc.label x).le, fun l' hl' => ?_⟩
    obtain ⟨l, hl, ⟨k, _, hk⟩, htokens⟩ := hlists.exists_of_mem_right hl'
    refine ⟨(congrArg String.length hk).trans_le (hc.label k).le, ?_⟩
    refine allBrief_sealedTo hc hnonces _ _ (fun u hu => ?_) htokens
    obtain ⟨t, ht, hu⟩ := Token.mem_occurrencesIn.mp hu
    exact hfits u (Structure.mem_occurrences.mpr ⟨s, hs, l, hl, t, ht, hu⟩)
  have htext := Structure.length_toText_le (by decide : 10 ≤ 88) hbrief (k := 1000) (by omega)
  omega

end Sealing

/-! ### Recorded ciphers -/

section Recorded

open Search

def laterNames : List (String × Nat × Nat) :=
  [("m.php", 0xd2eda5c50aa387752c8c41c311586d55362e61366a5d462b3cbffcc274c2843156 * 2 ^ 264 +
        0xb8f6e070cce9554b14e458915384730136b84979d35c1a4f9e6da63a2f7070c4ee,
      0xc3fe871f571a07734d01434a1579841187bf50cedfae76c9297f2d5c5937aee7),
    ("FUNC1", 0x787892edcb764b5e780594836cc97ebc7740a8899d44438011407e6a89d075a07e * 2 ^ 264 +
        0xe5eb62635b72b582fda01af14e74b988b4a20764236610c2b0ecc784c9973e1905,
      0xc34797a59e45bf527cf8a9b2e9b8a2413eff6cb402348b81bbd5ae6e959ae885),
    ("FUNC2", 0x2b4b68b634f99c82a5c6cb1ceaa2e8531f4f42265b15bcb4572350f52ed84c22d3 * 2 ^ 264 +
        0xec15206ee185ffb3486b44bc90987ea72a6a630d21d42cde948b496d34408e2aa4,
      0x069ba9c88c28cde5f923436e38ab9fa671acf8c2549535ad200f0fca313d6aac),
    ("VAR2", 0xde956cd27bd394e06baff26256a4fed22cae7d2e1ef3027b078e4360e93f914c25 * 2 ^ 264 +
        0x080c8f19b4cf1f290882d1fbcd3b18740372426b42ccb901d3f45ad0adee2c9ad1,
      0xd53c05d67ac99985fc851363aa0f74dbf0110f0788e0c9213e986d6692396f8e),
    ("VAR3", 0xa7d256901648d889641def48f87b46c187bf3c3c9703934d16d949f84d1c01dff4 * 2 ^ 264 +
        0x23ee96df43a9a44c02c6e63b8dbbc4b5699e8dcfe04648dce65f43231ae3821189,
      0x73db33596b030ef50ed401958d5501d0dee8b4a8a40f063a24f0dec5c22010c5)]

def recordedSteps : List (Int × Int) :=
  [(72, 5671779), (69, 5604487), (68, 5574961), (64, 5222888), (59, 5035017), (58, 4911316),
    (52, 4309365), (50, 4096573), (48, 4053849), (43, 3677010), (33, 2968948), (28, 2736977),
    (26, 2634475), (20, 2092815), (17, 1877493), (10, 1084360), (5, 811137), (0, 340949)]

def stepped : List (Int × Int) → Int → Int
  | [], n => n
  | (a, b) :: steps, n => if a ≤ n then b + (n - a) else stepped steps n

def unstepped : List (Int × Int) → Int → Int
  | [], x => x
  | (a, b) :: steps, x => if b ≤ x then a + (x - b) else unstepped steps x

def Rising : List (Int × Int) → Prop
  | [] => True
  | [(a, b)] => a ≤ b
  | (a, b) :: (a', b') :: steps => a' < a ∧ b' + (a - a') ≤ b ∧ Rising ((a', b') :: steps)

variable {steps : List (Int × Int)}

theorem stepped_lt {a b n : Int} (h : Rising ((a, b) :: steps))
    (hn : n < a) : stepped steps n < b := by
  induction steps generalizing a b with
  | nil => exact Int.lt_of_lt_of_le hn h
  | cons s steps ih =>
    obtain ⟨hlt, hle, hrest⟩ := h
    rw [stepped]
    split
    · omega
    · have hbelow := ih hrest (by omega)
      omega

theorem Rising.tail {s : Int × Int} (h : Rising (s :: steps)) : Rising steps := by
  cases steps with
  | nil => trivial
  | cons t steps => exact h.2.2

theorem unstepped_stepped (h : Rising steps) (n : Int) : unstepped steps (stepped steps n) = n := by
  induction steps with
  | nil => rfl
  | cons s steps ih =>
    rw [stepped, unstepped]
    split
    · rw [if_pos (by omega)]
      omega
    · rename_i hn
      have hlt := stepped_lt h (by omega : n < s.1)
      rw [if_neg (by omega)]
      exact ih h.tail

theorem stepped_strictMono (h : Rising steps) {m n : Int} (hmn : m < n) :
    stepped steps m < stepped steps n := by
  induction steps with
  | nil => exact hmn
  | cons s steps ih =>
    rw [stepped, stepped]
    by_cases hm : s.1 ≤ m
    · rw [if_pos hm, if_pos (by omega)]
      omega
    · rw [if_neg hm]
      split
      · have hlt := stepped_lt h (by omega : m < s.1)
        omega
      · exact ih h.tail

theorem stepped_bounds {b : Int} (hb : 0 ≤ b)
    (h : ∀ s ∈ steps, s.1 ≤ s.2 ∧ s.2 ≤ s.1 + b) (n : Int) :
    n ≤ stepped steps n ∧ stepped steps n ≤ n + b := by
  induction steps with
  | nil =>
    rw [stepped]
    omega
  | cons s steps ih =>
    obtain ⟨hfirst, hrest⟩ := List.forall_mem_cons.mp h
    rw [stepped]
    split
    · omega
    · exact ih hrest

theorem rising_recordedSteps : Rising recordedSteps := by
  simp [recordedSteps, Rising]

def suiteNames : List (String × Nat × Nat) := recordedNames ++ laterNames

def suiteTable : List (String × Nat) :=
  recordedHashes ++ recordedAgain.map (fun e => (recordedLabel e.1.name, e.2)) ++
    suiteNames.map fun e => (Base64.encode (Bytes.ofNat 66 e.2.1), e.2.2)

def sharedKey : Bytes :=
  Bytes.ofNat 32 0xa4d26868017c0ccffe2efe50944ef4211834660cca834c6e9f86dec6a88246fa

@[irreducible] def nameOf (x : String) : Except CipherError String :=
  match suiteNames.find? fun e => Base64.encode (Bytes.ofNat 66 e.2.1) == x with
  | some e => .ok e.1
  | none => .error .tag

/-- The suite of the passwords `secret` and `shared`. Labels, names and numbers are recorded;
texts are sealed and opened with the keys. -/
def recordedSuite : Suite where
  labelBytes s := hashBytes ((suiteTable.lookup s).getD 0)
  nameBytes s :=
    match suiteNames.lookup s with
    | some e => .ok (Bytes.ofNat 66 e.1)
    | none => .error .tag
  number n := .ok (stepped recordedSteps n)
  fileKey := Bytes.ofNat 32 0x2bb80d537b1da3e38bd30361aa855686bde0eacd7162fef6a25fe97bf527a25b
  openName := nameOf
  openNumber x := .ok (unstepped recordedSteps x)
  sealText := Cipher.sealWhole sharedKey
  openText := Cipher.openText sharedKey

namespace recordedSuite

theorem openName_eq : recordedSuite.openName = nameOf := rfl

variable {s x : String}

theorem name_eq_ok_iff : recordedSuite.name s = .ok x ↔
    ∃ e, suiteNames.lookup s = some e ∧ x = Base64.encode (Bytes.ofNat 66 e.1) := by
  simp only [Ciphers.name, recordedSuite]
  cases suiteNames.lookup s with
  | none => simp [Except.map]
  | some e => simp [Except.map, eq_comm]

theorem mem_of_lookup {β : Type} {t : List (String × β)} {b : β}
    (h : t.lookup s = some b) : (s, b) ∈ t := by
  induction t with
  | nil => cases h
  | cons e t ih =>
    obtain ⟨k, b'⟩ := e
    by_cases hk : s = k
    · subst hk
      simp only [List.lookup_cons, beq_self_eq_true, Option.some.injEq] at h
      exact h ▸ List.mem_cons_self
    · rw [List.lookup_cons, beq_false_of_ne hk] at h
      exact List.mem_cons_of_mem _ (ih h)

theorem nodup_names : (suiteNames.map fun e => (Bytes.ofNat 66 e.2.1).take 2).Nodup := by
  decide +kernel

theorem eq_of_encode {e f : String × Nat × Nat} (he : e ∈ suiteNames) (hf : f ∈ suiteNames)
    (h : Base64.encode (Bytes.ofNat 66 e.2.1) = Base64.encode (Bytes.ofNat 66 f.2.1)) : e = f :=
  List.inj_on_of_nodup_map nodup_names he hf (by rw [Base64.encode_injective h])

theorem sealsWhole (nonce : Bytes) (x : String) (h : x.length < 2 ^ 32) :
    ∃ y, recordedSuite.sealText nonce x = .ok y :=
  Cipher.exists_sealWhole (by decide : Aes.isKeyLength sharedKey.length) nonce h

theorem nameOf_encode {e : Nat × Nat} (he : (s, e) ∈ suiteNames) :
    nameOf (Base64.encode (Bytes.ofNat 66 e.1)) = .ok s := by
  unfold nameOf
  split
  · rename_i f hfind
    have hcode := List.find?_some hfind
    rw [beq_iff_eq] at hcode
    rw [eq_of_encode (List.mem_of_find?_eq_some hfind) he hcode]
  · rename_i hfind
    have hnone := List.find?_eq_none.mp hfind (s, e) he
    rw [beq_self_eq_true] at hnone
    exact absurd rfl hnone

theorem inverts : recordedSuite.Inverts where
  name x y h := by
    obtain ⟨e, he, rfl⟩ := name_eq_ok_iff.mp h
    rw [openName_eq, nameOf_encode (mem_of_lookup he)]
  number m n h := by
    cases h
    exact congrArg Except.ok (unstepped_stepped rising_recordedSteps m)
  text nonce x y hnonce hx h := by
    have hseal : Cipher.sealWhole sharedKey nonce x = .ok y := h
    exact Sealing.openText_sealWhole hnonce hx hseal

theorem encode_ne_label (n : Nat) (s : String) :
    Base64.encode (Bytes.ofNat 66 n) ≠ recordedSuite.label s := by
  intro h
  have hlength := congrArg List.length (Base64.encode_injective h)
  simp only [recordedSuite, Bytes.length_ofNat, length_hashBytes] at hlength
  omega

theorem exists_of_nameOf (h : nameOf x = .ok s) : ∃ n, Base64.encode (Bytes.ofNat 66 n) = x := by
  unfold nameOf at h
  split at h
  · rename_i f hfind
    have hcode := List.find?_some hfind
    rw [beq_iff_eq] at hcode
    exact ⟨f.2.1, hcode⟩
  · cases h

theorem rejects : recordedSuite.Rejects := by
  intro p x h
  rw [openName_eq] at h
  obtain ⟨n, hn⟩ := exists_of_nameOf h
  exact encode_ne_label n p.name hn

theorem label_special (p : Special) : recordedSuite.label p.name = recordedLabel p.name := by
  obtain ⟨n, hn, -⟩ := exists_lookup (special_recorded p).1
  simp only [Ciphers.label, recordedSuite, recordedLabel, suiteTable, List.append_assoc,
    List.lookup_append, hn, Option.some_or]

theorem mem_suiteTable {names : List String}
    (h : recordedSuite.Labelled names x) : x ∈ suiteTable.map Prod.fst := by
  simp only [suiteTable, List.map_append, List.mem_append, List.map_map]
  rcases h with ⟨p, rfl⟩ | ⟨p, rfl⟩ | ⟨s, _, hx⟩
  · exact .inl (.inl (special_recorded p).1)
  · obtain ⟨e, he, rfl⟩ := List.mem_map.mp (special_recorded p).2
    exact .inl (.inr (List.mem_map.mpr ⟨e, he, (label_special e.1).symm⟩))
  · obtain ⟨e, he, rfl⟩ := name_eq_ok_iff.mp hx
    exact .inr (List.mem_map.mpr ⟨(s, e), mem_of_lookup he, rfl⟩)

theorem sound {names : List String} (h : ∀ s ∈ names, s ∈ suiteNames.map Prod.fst) :
    recordedSuite.Sound names where
  fileKey := by decide
  name_total s hs := by
    obtain ⟨e, he, _⟩ := exists_lookup (h s hs)
    exact ⟨_, name_eq_ok_iff.mpr ⟨e, he, rfl⟩⟩
  name_inj s hs t ht heq := by
    obtain ⟨e, he, hmem⟩ := exists_lookup (h s hs)
    obtain ⟨f, hf, hmem'⟩ := exists_lookup (h t ht)
    have hx := name_eq_ok_iff.mpr ⟨e, he, rfl⟩
    obtain ⟨f', hf', hcode⟩ := name_eq_ok_iff.mp (heq ▸ hx)
    obtain rfl := Option.some.inj (hf.symm.trans hf')
    exact congrArg Prod.fst (eq_of_encode hmem hmem' hcode)
  label_inj x y hx hy heq := by
    have hnodup : (suiteTable.map fun e => (hashBytes e.2).take 4).Nodup := by decide +kernel
    obtain ⟨m, hm, hmem⟩ := exists_lookup (mem_suiteTable hx)
    obtain ⟨n, hn, hmem'⟩ := exists_lookup (mem_suiteTable hy)
    have hbytes := Base64.encode_injective heq
    simp only [recordedSuite, hm, hn, Option.getD_some] at hbytes
    exact congrArg Prod.fst (List.inj_on_of_nodup_map hnodup hmem hmem' (by rw [hbytes]))
  apart s _ p heq := by
    obtain ⟨e, _, hcode⟩ := name_eq_ok_iff.mp heq
    exact encode_ne_label _ _ hcode.symm
  number_total n _ := ⟨_, rfl⟩
  number_lt m n x y _ _ hmn hx hy := by
    cases hx
    cases hy
    exact stepped_strictMono rising_recordedSteps hmn

/-! Sealed texts are short. -/

theorem length_number {m n : Int} (hm : Ope.plainNumbers.has m = true)
    (h : recordedSuite.number m = .ok n) : (toString n).length ≤ 8 := by
  cases h
  obtain ⟨hlo, hhi⟩ : -1 ≤ m ∧ m ≤ 0x7fffe := Ope.has_iff.mp hm
  by_cases hneg : m = -1
  · subst hneg
    decide
  · have hbound := stepped_bounds (b := 6000000) (by decide) (by decide : ∀ s ∈ recordedSteps, _) m
    obtain ⟨n, hn⟩ := Int.eq_ofNat_of_zero_le (by omega : 0 ≤ stepped recordedSteps m)
    rw [hn] at hbound ⊢
    exact Nat.repr_length n 8 (by decide) (by omega)

theorem terse : recordedSuite.Terse fun _ => True where
  label s := by
    rw [Ciphers.label, Base64.length_encode]
    simp only [recordedSuite, length_hashBytes]
  name s x _ h := by
    obtain ⟨e, _, rfl⟩ := name_eq_ok_iff.mp h
    rw [Base64.length_encode, Bytes.length_ofNat]
  number m n hm h := (length_number hm h).trans (by decide)

def Fits (t : Token) : Prop :=
  t.InRange ∧ (Cipher.pad 16 (Cipher.textBytes t.mark.file)).length = 16

instance (t : Token) : Decidable (Fits t) := inferInstanceAs (Decidable (_ ∧ _))

theorem Fits.short {t : Token} (h : Fits t) : t.mark.file.length < 2 ^ 32 := by
  have hbytes := Cipher.length_le_ofText t.mark.file
  have hpad := h.2
  simp only [Cipher.pad, Cipher.textBytes, List.length_append, Bytes.length_ofNat] at hpad
  omega

theorem brief_sealedTo {nonces : Nat → Bytes} (hnonces : ∀ n, (nonces n).length = 16)
    (t t' : Token) (hfits : ∀ u ∈ t.occurrences, Fits u)
    (h : t.SealedTo nonces recordedSuite.toCiphers t') : t'.Brief 88 :=
  Sealing.brief_sealedTo terse hnonces t t' (fun u hu => ⟨fun _ _ => trivial, hfits u hu⟩) h

theorem length_sealed_lt {nonces : Nat → Bytes} (hnonces : ∀ n, (nonces n).length = 16)
    {d e : Structure} (h : d.SealedTo nonces recordedSuite.toCiphers e)
    (hfits : ∀ t ∈ d.occurrences, Fits t)
    (hsize : 1 + 2 * d.length + 2 * (d.map fun s => s.2.length).sum +
      30 * d.occurrences.length ≤ 1000) : e.toText.length < 2 ^ 32 :=
  Sealing.length_sealed_lt terse hnonces h (fun u hu => ⟨fun _ _ => trivial, hfits u hu⟩) hsize

end recordedSuite

end Recorded

/-! ### The file -/

namespace Sealing

open Search

variable {nonces : Nat → Bytes} {d : Structure}

theorem exists_structureFile {s : Suite}
    (hwhole : ∀ nonce x, x.length < 2 ^ 32 → ∃ y, s.sealText nonce x = .ok y)
    (hrange : ∀ t ∈ d.occurrences, t.InRange)
    (hfiles : ∀ t ∈ d.occurrences, t.mark.file.length < 2 ^ 32) (htotal : s.Total d.sealedNames)
    (hshort : ∀ e n, sealStructure nonces s.toCiphers d 0 = (.ok e, n) →
      (Structure.toText (Table.ofEntries (handedOver e))).length < 2 ^ 32) :
    ∃ file n, structureFile nonces s d 0 = (.ok file, n) := by
  obtain ⟨e, k, he⟩ := exists_sealed nonces hrange hfiles htotal
  rw [structureFile, Act.bind_of_ok he]
  split
  · exact ⟨_, _, rfl⟩
  · obtain ⟨y, hy⟩ := hwhole (nonces k) _ (hshort e k he)
    have hseal : ofExcept (s.sealText (nonces k)
        (Structure.toText (Table.ofEntries (handedOver e)))) (k + 1) = (.ok y, k + 1) :=
      ofExcept_eq_ok_iff.mpr ⟨hy, rfl⟩
    exact ⟨asFile y, k + 1, Act.bind_eq_ok_iff.mpr ⟨nonces k, k + 1, rfl,
      Act.bind_eq_ok_iff.mpr ⟨y, k + 1, hseal, rfl⟩⟩⟩

theorem length_handedOver_lt (hc : SealedApart c d) (hd : d.Distinct) (hfull : ∀ e ∈ d, e.2 ≠ [])
    (hshort : ∀ e n, sealStructure nonces c d 0 = (.ok e, n) → e.toText.length < 2 ^ 32)
    (e : Structure) (n : Nat) (h : sealStructure nonces c d 0 = (.ok e, n)) :
    (Structure.toText (Table.ofEntries (handedOver e))).length < 2 ^ 32 := by
  obtain ⟨_, _, hover⟩ := sealStructure_handedOver hc hd hfull h
  rw [hover]
  exact hshort e n h

/-- What was handed over opens to what the structure was sealed to. -/
theorem sealedTo_of_structureFile {s : Suite} (hs : s.OpensTexts) (hnonces : ∀ n, (nonces n).length = 16)
    (hd : d.Distinct) (hfull : d ≠ [] ∧ ∀ e ∈ d, e.2 ≠ []) (hc : SealedApart s.toCiphers d)
    {file : String} {n : Nat} (h : structureFile nonces s d 0 = (.ok file, n)) :
    ∃ text e, s.openText file = .ok text ∧ Structure.ofText text = .ok e ∧
      d.SealedTo nonces s.toCiphers e := by
  obtain ⟨e, _, text, hseal, _, hopen, hread⟩ := open_structureFile hs hnonces hd hfull hc h
  exact ⟨text, e.numbered, hopen, hread, scopesSealedTo_numbered (sealStructure_sealedTo hc hd hseal) 0⟩

/-- A structure is handed over, and the auditor reads from the file what every scope, list and
token of it was sealed to, in the same order. -/
theorem delivers_sealed {s : Suite} (hs : s.OpensTexts)
    (hwhole : ∀ nonce x, x.length < 2 ^ 32 → ∃ y, s.sealText nonce x = .ok y)
    (hnonces : ∀ n, (nonces n).length = 16) (hd : d.Distinct)
    (hfull : d ≠ [] ∧ ∀ e ∈ d, e.2 ≠ []) (hrange : ∀ t ∈ d.occurrences, t.InRange)
    (hfiles : ∀ t ∈ d.occurrences, t.mark.file.length < 2 ^ 32) (htotal : s.Total d.sealedNames)
    (hc : SealedApart s.toCiphers d)
    (hshort : ∀ e n, sealStructure nonces s.toCiphers d 0 = (.ok e, n) → e.toText.length < 2 ^ 32) :
    ∃ file n text e, structureFile nonces s d 0 = (.ok file, n) ∧ s.openText file = .ok text ∧
      Structure.ofText text = .ok e ∧ d.SealedTo nonces s.toCiphers e := by
  obtain ⟨file, n, hfile⟩ := exists_structureFile hwhole hrange hfiles htotal
    (length_handedOver_lt hc hd hfull.2 hshort)
  obtain ⟨text, e, hopened⟩ := sealedTo_of_structureFile hs hnonces hd hfull hc hfile
  exact ⟨file, n, text, e, hfile, hopened⟩

theorem delivers_sealed_shared :
    (∀ t ∈ sharedSample.occurrences, t.InRange) ∧ recordedSuite.Total sharedSample.sealedNames ∧
    SealedApart recordedSuite.toCiphers sharedSample ∧
    ∃ file n text e, structureFile (Bytes.ofNat 16) recordedSuite sharedSample 0 = (.ok file, n) ∧
      recordedSuite.openText file = .ok text ∧ Structure.ofText text = .ok e ∧
      sharedSample.SealedTo (Bytes.ofNat 16) recordedSuite.toCiphers e := by
  have hd : sharedSample.Distinct := by decide +kernel
  have hfits : ∀ t ∈ sharedSample.occurrences, recordedSuite.Fits t := by decide +kernel
  have hnames : ∀ s ∈ sharedSample.sealedNames, s ∈ suiteNames.map Prod.fst := by decide +kernel
  have hfull : sharedSample ≠ [] ∧ ∀ e ∈ sharedSample, e.2 ≠ [] := by decide +kernel
  have hsound := recordedSuite.sound hnames
  have hc := sealedApart_of_distinguishes hsound.distinguishes
  have hnonces := Bytes.length_ofNat 16
  have hshort : ∀ e n, sealStructure (Bytes.ofNat 16) recordedSuite.toCiphers sharedSample 0 =
      (.ok e, n) → e.toText.length < 2 ^ 32 := fun e n h =>
    recordedSuite.length_sealed_lt hnonces (sealStructure_sealedTo hc hd h) hfits (by decide +kernel)
  exact ⟨fun t ht => (hfits t ht).1, hsound.total, hc,
    delivers_sealed recordedSuite.inverts.text recordedSuite.sealsWhole hnonces hd hfull
      (fun t ht => (hfits t ht).1) (fun t ht => (hfits t ht).short) hsound.total hc hshort⟩

end Sealing

end MaskedTaint
