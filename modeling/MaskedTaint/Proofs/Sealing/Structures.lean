import MaskedTaint.Proofs.Cipher.Texts
import MaskedTaint.Proofs.Sealing.Tokens

/-! Sealing a whole structure. It succeeds if the ciphers cover what stands in the
structure, and it seals every list token by token, each with the nonce of its place. -/

namespace MaskedTaint

def Special.asName (k : String) : List String := if Special.isName k then [] else [k]

def Token.names : Token → List String
  | .site _ m => Special.asName m.kind ++ [m.scope, m.line.render, m.split.render]
  | .jump _ m target _ => [target] ++ [m.scope, m.line.render, m.split.render]

def Structure.sealedNames (d : Structure) : List String :=
  d.names ++ d.flatMap (fun e => e.2.names.flatMap Special.asName) ++ d.occurrences.flatMap Token.names

namespace Ciphers

def Labelled (c : Ciphers) (names : List String) (x : String) : Prop :=
  (∃ p : Special, x = p.name) ∨ (∃ p : Special, x = c.label p.name) ∨ ∃ s ∈ names, c.name s = .ok x

/-- Different names and different labelled texts stay different, no name is sealed to the label
of a special one, and numbers keep their order. -/
structure Sound (c : Ciphers) (names : List String) : Prop where
  fileKey : Aes.isKeyLength c.fileKey.length = true
  name_total : ∀ s ∈ names, ∃ x, c.name s = .ok x
  name_inj : ∀ s ∈ names, ∀ t ∈ names, c.name s = c.name t → s = t
  label_inj : ∀ x y, c.Labelled names x → c.Labelled names y → c.label x = c.label y → x = y
  apart : ∀ s ∈ names, ∀ p : Special, c.name s ≠ .ok (c.label p.name)
  number_total : ∀ n, Ope.plainNumbers.has n = true → ∃ x, c.number n = .ok x
  number_lt : ∀ m n x y, Ope.plainNumbers.has m = true → Ope.plainNumbers.has n = true → m < n →
    c.number m = .ok x → c.number n = .ok y → x < y

/-- Different names and different labelled texts stay different, and no name is sealed to the
label of a special one. -/
structure Distinguishes (c : Ciphers) (names : List String) : Prop where
  name_inj : ∀ s ∈ names, ∀ t ∈ names, c.name s = c.name t → s = t
  label_inj : ∀ x y, c.Labelled names x → c.Labelled names y → c.label x = c.label y → x = y
  apart : ∀ s ∈ names, ∀ p : Special, c.name s ≠ .ok (c.label p.name)

theorem Sound.distinguishes {c : Ciphers} {names : List String} (h : c.Sound names) :
    c.Distinguishes names := ⟨h.name_inj, h.label_inj, h.apart⟩

/-- These names and all numbers in range are sealed without an error. -/
structure Total (c : Ciphers) (names : List String) : Prop where
  fileKey : Aes.isKeyLength c.fileKey.length = true
  name : ∀ s ∈ names, ∃ x, c.name s = .ok x
  number : ∀ n, Ope.plainNumbers.has n = true → ∃ x, c.number n = .ok x

theorem Sound.total {c : Ciphers} {names : List String} (h : c.Sound names) : c.Total names :=
  ⟨h.fileKey, h.name_total, h.number_total⟩

end Ciphers

/-- The numbers of a token lie in the range of the cipher. -/
def Token.InRange (t : Token) : Prop :=
  Ope.plainNumbers.has t.pos = true ∧ Ope.plainNumbers.has t.mark.depth = true ∧
    Ope.plainNumbers.has t.mark.order = true ∧ Ope.plainNumbers.has t.mark.flow = true

/-- What can be sealed of a token: these names, its numbers, and a file name that is not too long. -/
def Token.Covered (names : List String) (t : Token) : Prop :=
  t.names ⊆ names ∧ t.InRange ∧ t.mark.file.length < 2 ^ 32

namespace Sealing

variable {nonces : Nat → Bytes} {c : Ciphers} {names : List String}

/-! ### Success -/

theorem mem_of_asName {k : String} (h : Special.asName k ⊆ names) (hk : ¬ Special.isName k = true) :
    k ∈ names :=
  h (by simp [Special.asName, hk])

theorem exists_sealsKind (hc : c.Total names) {k : String} (hk : Special.asName k ⊆ names) :
    ∃ k', c.SealsKind k k' := by
  unfold Ciphers.SealsKind
  split
  · exact ⟨_, rfl⟩
  · exact hc.name k (mem_of_asName hk ‹_›)

theorem marks_subset {t : Token} (h : t.names ⊆ names) :
    t.scope ∈ names ∧ t.mark.line.render ∈ names ∧ t.split.render ∈ names := by
  have htail : [t.scope, t.mark.line.render, t.split.render] ⊆ t.names := by
    cases t <;> exact List.subset_append_right _ _
  exact ⟨h (htail (by simp)), h (htail (by simp)), h (htail (by simp))⟩

theorem exists_sealsMark (hc : c.Total names) (nonce : Bytes) {t : Token}
    (h : t.Covered names) (kind : String) :
    ∃ m', m'.kind = kind ∧ c.SealsMark nonce t.mark m' := by
  obtain ⟨hnames, hrange, hshort⟩ := h
  obtain ⟨hscope, hline, hsplit⟩ := marks_subset hnames
  obtain ⟨line, hline⟩ := hc.name _ hline
  obtain ⟨split, hsplit⟩ := hc.name _ hsplit
  obtain ⟨scope, hscope⟩ := hc.name _ hscope
  obtain ⟨pos, hpos⟩ := hc.number _ hrange.1
  obtain ⟨depth, hdepth⟩ := hc.number _ hrange.2.1
  obtain ⟨order, horder⟩ := hc.number _ hrange.2.2.1
  obtain ⟨flow, hflow⟩ := hc.number _ hrange.2.2.2
  obtain ⟨file, hfile⟩ := Cipher.exists_sealWhole hc.fileKey nonce hshort
  exact ⟨⟨kind, .text line, pos, depth, order, flow, .text split, scope, file⟩, rfl,
    ⟨line, hline, rfl⟩, hpos, hdepth, horder, hflow, ⟨split, hsplit, rfl⟩, hscope, hfile⟩

mutual

theorem exists_sealToken (hc : c.Total names) : ∀ (t : Token) (n : Nat),
    (∀ u ∈ t.occurrences, u.Covered names) →
      ∃ t' n', sealToken nonces c t n = (.ok t', n')
  | .site i m, n, h => by
    have hself := h (.site i m) (Token.mem_occurrences_self _)
    have hkind : Special.asName m.kind ⊆ names :=
      fun s hs => hself.1 (List.mem_append_left _ hs)
    obtain ⟨k', hk⟩ := exists_sealsKind hc hkind
    obtain ⟨m', rfl, hm⟩ := exists_sealsMark hc (nonces n) hself k'
    exact ⟨_, _, sealToken_site_iff.mpr ⟨m', rfl, hk, hm, rfl⟩⟩
  | .jump i m g as, n, h => by
    have hself := h (.jump i m g as) (Token.mem_occurrences_self _)
    obtain ⟨m', hk, hm⟩ := exists_sealsMark hc (nonces n) hself (c.label m.kind)
    obtain ⟨g', hg⟩ := hc.name _ (hself.1 (by simp [Token.names] : g ∈ _))
    obtain ⟨as', n', has⟩ := exists_sealTokens hc as (n + 1)
      fun u hu => h u (List.mem_cons_of_mem _ hu)
    exact ⟨_, _, sealToken_jump_iff.mpr ⟨m', g', as', rfl, hk, hm, hg, has⟩⟩

theorem exists_sealTokens (hc : c.Total names) : ∀ (ts : List Token) (n : Nat),
    (∀ u ∈ Token.occurrencesIn ts, u.Covered names) →
      ∃ ts' n', sealTokens nonces c ts n = (.ok ts', n')
  | [], n, _ => ⟨[], n, rfl⟩
  | t :: ts, n, h => by
    obtain ⟨t', k, ht⟩ := exists_sealToken hc t n fun u hu => h u (List.mem_append_left _ hu)
    obtain ⟨ts', n', hts⟩ := exists_sealTokens hc ts k fun u hu => h u (List.mem_append_right _ hu)
    exact ⟨_, _, sealTokens_cons_iff.mpr ⟨t', ts', k, rfl, ht, hts⟩⟩

end

/-! ### Lists and scopes -/

variable {n' : Nat}

variable {es es' : List (String × List Token)}

theorem sealLists_cons_iff {l : String × List Token} {n : Nat} :
    sealLists nonces c (l :: es) n = (.ok es', n') ↔ ∃ k ts rest n₁, es' = (c.label k, ts) :: rest ∧
      c.SealsKind l.1 k ∧ sealTokens nonces c l.2 n = (.ok ts, n₁) ∧
      sealLists nonces c es n₁ = (.ok rest, n') := by
  simp only [sealLists, sealKeyName, Act.bind_eq_ok_iff, sealKind_eq_ok_iff, pure_eq_ok_iff]
  constructor
  · rintro ⟨_, _, ⟨k, _, ⟨hk, rfl⟩, rfl, rfl⟩, ts, n₁, hts, rest, _, hrest, rfl, rfl⟩
    exact ⟨k, ts, rest, n₁, rfl, hk, hts, hrest⟩
  · rintro ⟨k, ts, rest, n₁, rfl, hk, hts, hrest⟩
    exact ⟨_, _, ⟨k, _, ⟨hk, rfl⟩, rfl, rfl⟩, ts, n₁, hts, rest, _, hrest, rfl, rfl⟩

theorem sealScopes_cons_iff {e : String × Scope} {es es' : List (String × Scope)} {n : Nat} :
    sealScopes nonces c (e :: es) n = (.ok es', n') ↔ ∃ x ls rest n₁,
      es' = (c.label x, Table.ofEntries ls) :: rest ∧ c.name e.1 = .ok x ∧
      sealLists nonces c e.2 n = (.ok ls, n₁) ∧ sealScopes nonces c es n₁ = (.ok rest, n') := by
  simp only [sealScopes, sealScopeName, sealName, Act.bind_eq_ok_iff, ofExcept_eq_ok_iff,
    pure_eq_ok_iff]
  constructor
  · rintro ⟨_, _, ⟨x, _, ⟨hx, rfl⟩, rfl, rfl⟩, ls, n₁, hls, rest, _, hrest, rfl, rfl⟩
    exact ⟨x, ls, rest, n₁, rfl, hx, hls, hrest⟩
  · rintro ⟨x, ls, rest, n₁, rfl, hx, hls, hrest⟩
    exact ⟨_, _, ⟨x, _, ⟨hx, rfl⟩, rfl, rfl⟩, ls, n₁, hls, rest, _, hrest, rfl, rfl⟩

theorem sealLists_forall₂ {n : Nat} (h : sealLists nonces c es n = (.ok es', n')) :
    List.Forall₂ (fun l l' => (∃ k, c.SealsKind l.1 k ∧ l'.1 = c.label k) ∧
      ∃ n n', sealTokens nonces c l.2 n = (.ok l'.2, n')) es es' := by
  induction es generalizing es' n with
  | nil =>
    obtain ⟨rfl, -⟩ := pure_eq_ok_iff.mp h
    exact .nil
  | cons l es ih =>
    obtain ⟨k, ts, rest, n₁, rfl, hk, hts, hrest⟩ := sealLists_cons_iff.mp h
    exact .cons ⟨⟨k, hk, rfl⟩, _, _, hts⟩ (ih hrest)

theorem sealScopes_forall₂ {es es' : List (String × Scope)} {n : Nat}
    (h : sealScopes nonces c es n = (.ok es', n')) :
    List.Forall₂ (fun e e' => (∃ x, c.name e.1 = .ok x ∧ e'.1 = c.label x) ∧
      ∃ ls n n', e'.2 = Table.ofEntries ls ∧ sealLists nonces c e.2 n = (.ok ls, n')) es es' := by
  induction es generalizing es' n with
  | nil =>
    obtain ⟨rfl, -⟩ := pure_eq_ok_iff.mp h
    exact .nil
  | cons e es ih =>
    obtain ⟨x, ls, rest, n₁, rfl, hx, hls, hrest⟩ := sealScopes_cons_iff.mp h
    exact .cons ⟨⟨x, hx, rfl⟩, ls, _, _, rfl, hls⟩ (ih hrest)

theorem exists_sealLists (hc : c.Total names) (es : List (String × List Token)) (n : Nat)
    (h : ∀ l ∈ es, Special.asName l.1 ⊆ names ∧ ∀ u ∈ Token.occurrencesIn l.2, u.Covered names) :
    ∃ es' n', sealLists nonces c es n = (.ok es', n') := by
  induction es generalizing n with
  | nil => exact ⟨[], n, rfl⟩
  | cons l es ih =>
    obtain ⟨hl, htokens⟩ := h l (by simp)
    obtain ⟨k, hk⟩ := exists_sealsKind hc hl
    obtain ⟨ts, n₁, hts⟩ := exists_sealTokens hc l.2 n htokens
    obtain ⟨rest, n', hrest⟩ := ih n₁ fun l hl => h l (by simp [hl])
    exact ⟨_, _, sealLists_cons_iff.mpr ⟨k, ts, rest, n₁, rfl, hk, hts, hrest⟩⟩

theorem exists_sealScopes (hc : c.Total names) (es : List (String × Scope)) (n : Nat)
    (h : ∀ e ∈ es, e.1 ∈ names ∧ ∀ l ∈ e.2,
      Special.asName l.1 ⊆ names ∧ ∀ u ∈ Token.occurrencesIn l.2, u.Covered names) :
    ∃ es' n', sealScopes nonces c es n = (.ok es', n') := by
  induction es generalizing n with
  | nil => exact ⟨[], n, rfl⟩
  | cons e es ih =>
    obtain ⟨he, hlists⟩ := h e (by simp)
    obtain ⟨x, hx⟩ := hc.name _ he
    obtain ⟨ls, n₁, hls⟩ := exists_sealLists hc e.2 n hlists
    obtain ⟨rest, n', hrest⟩ := ih n₁ fun e he => h e (by simp [he])
    exact ⟨_, _, sealScopes_cons_iff.mpr ⟨x, ls, rest, n₁, rfl, hx, hls, hrest⟩⟩

def sealAt (nonces : Nat → Bytes) (c : Ciphers) (all : List Token) (t : Token) :
    Except CipherError Token := (sealToken nonces c t (placeIn all t.id)).1

def SealsList (nonces : Nat → Bytes) (c : Ciphers) (all : List Token) (l l' : String × List Token) :
    Prop :=
  (∃ k, c.SealsKind l.1 k ∧ l'.1 = c.label k) ∧
    List.Forall₂ (fun t t' => sealAt nonces c all t = .ok t') l.2 l'.2

variable {all pre post : List Token}

theorem sealLists_located (hall : (all.map Token.id).Nodup)
    (hloc : all = pre ++ ((es.flatMap fun l => Token.occurrencesIn l.2) ++ post))
    (h : sealLists nonces c es pre.length = (.ok es', n')) :
    n' = pre.length + (es.flatMap fun l => Token.occurrencesIn l.2).length ∧
      List.Forall₂ (SealsList nonces c all) es es' := by
  induction es generalizing pre es' with
  | nil =>
    obtain ⟨rfl, rfl⟩ := pure_eq_ok_iff.mp h
    exact ⟨rfl, .nil⟩
  | cons l es ih =>
    obtain ⟨k, ts, rest, n₁, rfl, hk, hts, hrest⟩ := sealLists_cons_iff.mp h
    rw [List.flatMap_cons] at hloc ⊢
    have hcount := sealTokens_count l.2 hts
    rw [List.append_assoc] at hloc
    have htokens := sealTokens_located hall hloc hts
    rw [hcount, ← List.length_append] at hrest
    obtain ⟨hn, hlists⟩ := ih (by rw [hloc, List.append_assoc]) hrest
    refine ⟨?_, .cons ⟨⟨k, hk, rfl⟩, htokens⟩ hlists⟩
    rw [hn, List.length_append, List.length_append, Nat.add_assoc]

theorem sealScopes_located (hall : (all.map Token.id).Nodup) {es es' : List (String × Scope)}
    (hloc : all = pre ++ ((es.flatMap fun e => e.2.flatMap fun l => Token.occurrencesIn l.2) ++ post))
    (h : sealScopes nonces c es pre.length = (.ok es', n')) :
    List.Forall₂ (fun e e' => (∃ x, c.name e.1 = .ok x ∧ e'.1 = c.label x) ∧
      ∃ ls, e'.2 = Table.ofEntries ls ∧ List.Forall₂ (SealsList nonces c all) e.2 ls) es es' := by
  induction es generalizing pre es' with
  | nil =>
    obtain ⟨rfl, rfl⟩ := pure_eq_ok_iff.mp h
    exact .nil
  | cons e es ih =>
    obtain ⟨x, ls, rest, n₁, rfl, hx, hls, hrest⟩ := sealScopes_cons_iff.mp h
    rw [List.flatMap_cons, List.append_assoc] at hloc
    obtain ⟨hn, hlists⟩ := sealLists_located hall hloc hls
    rw [hn, ← List.length_append] at hrest
    refine .cons ⟨⟨x, hx, rfl⟩, ls, rfl, hlists⟩ (ih ?_ hrest)
    rw [hloc, List.append_assoc]

end Sealing

end MaskedTaint
