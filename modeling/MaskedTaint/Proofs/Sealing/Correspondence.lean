import MaskedTaint.Proofs.Flow.Signature
import MaskedTaint.Proofs.Sealing.Structures
import MaskedTaint.Proofs.Search.Rekeyed

/-! A structure and its sealed form correspond: names, keys, numbers and places come out alike
for the search. Which whole tokens count as alike is another matter, since every occurrence is
sealed with a nonce of its own. -/

namespace MaskedTaint

namespace Token

def Regular : Token → Prop
  | site _ m => m.kind ≠ Special.call.name ∧ m.kind ≠ Special.imports.name
  | jump _ m _ _ => m.kind = Special.call.name

instance : (t : Token) → Decidable t.Regular
  | site _ _ => inferInstanceAs (Decidable (_ ∧ _))
  | jump _ _ _ _ => inferInstanceAs (Decidable (_ = _))

instance (t : Token) : Decidable t.InRange := inferInstanceAs (Decidable (_ ∧ _))

theorem mem_occurrences_arg {i : Nat} {m : Mark} {g : String} {as : List Token} {a : Token}
    (h : a ∈ as) : a ∈ (jump i m g as).occurrences :=
  List.mem_cons_of_mem _ (mem_occurrencesIn.mpr ⟨a, h, a.mem_occurrences_self⟩)

def rebound (q : Mark) : Token → Token
  | site i m => site i (Search.boundMark q m)
  | jump i m target args => jump i (Search.boundMark q m) target args

end Token

namespace Structure

/-- All token occurrences have numbers of their own, within the range of the cipher, and split
marks differ as texts. Jumps are calls, except in lists of imports. -/
structure Orderly (d : Structure) : Prop where
  distinct : d.Distinct
  ids : (d.occurrences.map Token.id).Nodup
  regular : ∀ e ∈ d, ∀ l ∈ e.2, l.1 ≠ Special.imports.name →
    ∀ t ∈ Token.occurrencesIn l.2, t.Regular
  inRange : ∀ t ∈ d.occurrences, t.InRange
  splits : ∀ t ∈ d.occurrences, ∀ u ∈ d.occurrences, t.split.render = u.split.render →
    t.split = u.split

def Flows (d : Structure) (t : Token) : Prop :=
  ∃ e ∈ d, ∃ l ∈ e.2, l.1 ≠ Special.imports.name ∧ t ∈ Token.occurrencesIn l.2

theorem Flows.mem_occurrences {d : Structure} {t : Token} (h : d.Flows t) : t ∈ d.occurrences := by
  obtain ⟨e, he, l, hl, _, ht⟩ := h
  obtain ⟨u, hu, ht⟩ := Token.mem_occurrencesIn.mp ht
  exact Structure.mem_occurrences.mpr ⟨e, he, l, hl, u, hu, ht⟩

theorem Flows.of_mem {d : Structure} {t u : Token} (h : d.Flows t) (hu : u ∈ t.occurrences) :
    d.Flows u := by
  obtain ⟨e, he, l, hl, hkey, ht⟩ := h
  obtain ⟨v, hv, ht⟩ := Token.mem_occurrencesIn.mp ht
  exact ⟨e, he, l, hl, hkey, Token.mem_occurrencesIn.mpr
    ⟨v, hv, (Token.occurrences_within v ht).subset hu⟩⟩

def Meets (d : Structure) (t : Token) : Prop :=
  ∃ o, d.Flows o ∧ ∃ q ∈ d.occurrences, t = o.rebound q.mark

variable {d : Structure} {t : Token}

theorem Flows.meets (h : d.Flows t) : d.Meets t :=
  ⟨t, h, t, h.mem_occurrences, by cases t <;> rfl⟩

theorem Meets.regular (hd : d.Orderly) (h : d.Meets t) : t.Regular := by
  obtain ⟨o, ⟨e, he, l, hl, hkey, ho⟩, q, _, rfl⟩ := h
  have hreg := hd.regular e he l hl hkey o ho
  cases o <;> exact hreg

theorem Meets.inRange (hd : d.Orderly) (h : d.Meets t) : t.InRange := by
  obtain ⟨o, ho, q, hq, rfl⟩ := h
  have hpos := (hd.inRange o ho.mem_occurrences).1
  obtain ⟨_, hdepth, horder, hflow⟩ := hd.inRange q hq
  cases o <;> exact ⟨hpos, hdepth, horder, hflow⟩

theorem scope_mem_sealedNames {e : String × Scope} (he : e ∈ d) : e.1 ∈ d.sealedNames :=
  List.mem_append_left _ (List.mem_append_left _ (List.mem_map_of_mem he))

theorem key_subset_sealedNames {e : String × Scope} (he : e ∈ d) {l : String × List Token}
    (hl : l ∈ e.2) : Special.asName l.1 ⊆ d.sealedNames := by
  intro s hs
  refine List.mem_append_left _ (List.mem_append_right _ ?_)
  exact List.mem_flatMap.mpr ⟨e, he, List.mem_flatMap.mpr ⟨l.1, List.mem_map_of_mem hl, hs⟩⟩

theorem names_subset_sealedNames (h : t ∈ d.occurrences) : t.names ⊆ d.sealedNames :=
  fun _ hs => List.mem_append_right _ (List.mem_flatMap.mpr ⟨t, h, hs⟩)

theorem Meets.names_subset (h : d.Meets t) : t.names ⊆ d.sealedNames := by
  obtain ⟨o, ho, q, hq, rfl⟩ := h
  have hnames := names_subset_sealedNames ho.mem_occurrences
  obtain ⟨hscope, hline, _⟩ := Sealing.marks_subset hnames
  have hsplit := (Sealing.marks_subset (names_subset_sealedNames hq)).2.2
  intro s hs
  cases o <;>
  · rcases List.mem_append.mp hs with hs | hs
    · exact hnames (List.mem_append_left _ hs)
    · simp only [List.mem_cons, List.not_mem_nil, or_false] at hs
      rcases hs with rfl | rfl | rfl
      · exact hscope
      · exact hline
      · exact hsplit

end Structure

/-! ### What the ciphers keep -/

theorem Special.isName_name (p : Special) : isName p.name = true := by
  rcases p with _ | v | v | _ | _ | _ | _ <;> (try cases v) <;> decide

namespace Ciphers

variable {c : Ciphers} {names : List String}

variable {s x : String}

theorem Distinguishes.name_iff (hc : c.Distinguishes names) {t y : String} (hs : s ∈ names) (ht : t ∈ names)
    (hx : c.name s = .ok x) (hy : c.name t = .ok y) : s = t ↔ x = y := by
  constructor
  · rintro rfl
    exact Except.ok.inj (hx.symm.trans hy)
  · rintro rfl
    exact hc.name_inj s hs t ht (hx.trans hy.symm)

theorem exists_special {k : String} (h : Special.isName k = true) : ∃ p : Special, k = p.name := by
  obtain ⟨p, _, hp⟩ := List.any_eq_true.mp h
  exact ⟨p, (beq_iff_eq.mp hp).symm⟩

theorem Distinguishes.kind_iff (hc : c.Distinguishes names) {t y : String} (hs : Special.asName s ⊆ names)
    (ht : Special.asName t ⊆ names) (hx : c.SealsKind s x) (hy : c.SealsKind t y) :
    s = t ↔ x = y := by
  unfold SealsKind at hx hy
  by_cases hns : Special.isName s
  · rw [if_pos hns] at hx
    obtain ⟨p, rfl⟩ := exists_special hns
    by_cases hnt : Special.isName t
    · rw [if_pos hnt] at hy
      obtain ⟨q, rfl⟩ := exists_special hnt
      rw [hx, hy]
      exact ⟨congrArg _, hc.label_inj _ _ (.inl ⟨p, rfl⟩) (.inl ⟨q, rfl⟩)⟩
    · rw [if_neg hnt] at hy
      refine ⟨fun h => absurd (h ▸ hns) hnt, fun h => ?_⟩
      have hlabel := hy.trans (congrArg _ (h.symm.trans hx))
      exact absurd hlabel (hc.apart t (Sealing.mem_of_asName ht hnt) p)
  · rw [if_neg hns] at hx
    have hs := Sealing.mem_of_asName hs hns
    by_cases hnt : Special.isName t
    · rw [if_pos hnt] at hy
      obtain ⟨q, rfl⟩ := exists_special hnt
      refine ⟨fun h => absurd (h ▸ hnt) hns, fun h => ?_⟩
      exact absurd (hx.trans (congrArg _ (h.trans hy))) (hc.apart s hs q)
    · rw [if_neg hnt] at hy
      exact hc.name_iff hs (Sealing.mem_of_asName ht hnt) hx hy

theorem Distinguishes.special_inj (hc : c.Distinguishes names) {p q : Special}
    (h : c.label p.name = c.label q.name) : p.name = q.name :=
  hc.label_inj _ _ (.inl ⟨p, rfl⟩) (.inl ⟨q, rfl⟩) h

theorem labelled_of_sealsKind (hs : Special.asName s ⊆ names)
    (hx : c.SealsKind s x) : c.Labelled names x := by
  unfold SealsKind at hx
  split at hx
  · rename_i hname
    obtain ⟨p, rfl⟩ := exists_special hname
    exact .inr (.inl ⟨p, hx⟩)
  · exact .inr (.inr ⟨s, Sealing.mem_of_asName hs ‹_›, hx⟩)

theorem Distinguishes.scope_iff (hc : c.Distinguishes names) {a a' b b' : String}
    (ha : a ∈ names ∧ ∃ x, c.name a = .ok x ∧ a' = c.label x)
    (hb : b ∈ names ∧ ∃ x, c.name b = .ok x ∧ b' = c.label x) : a = b ↔ a' = b' := by
  obtain ⟨ha, x, hx, rfl⟩ := ha
  obtain ⟨hb, y, hy, rfl⟩ := hb
  rw [hc.name_iff ha hb hx hy]
  exact ⟨congrArg _, hc.label_inj x y (.inr (.inr ⟨a, ha, hx⟩)) (.inr (.inr ⟨b, hb, hy⟩))⟩

theorem Distinguishes.key_iff (hc : c.Distinguishes names) {a a' b b' : String}
    (ha : Special.asName a ⊆ names ∧ ∃ x, c.SealsKind a x ∧ a' = c.label x)
    (hb : Special.asName b ⊆ names ∧ ∃ x, c.SealsKind b x ∧ b' = c.label x) : a = b ↔ a' = b' := by
  obtain ⟨ha, x, hx, rfl⟩ := ha
  obtain ⟨hb, y, hy, rfl⟩ := hb
  rw [hc.kind_iff ha hb hx hy]
  exact ⟨congrArg _, hc.label_inj x y (labelled_of_sealsKind ha hx) (labelled_of_sealsKind hb hy)⟩

theorem sealsKind_special (c : Ciphers) (p : Special) : c.SealsKind p.name (c.label p.name) := by
  unfold SealsKind
  rw [if_pos (Special.isName_name p)]

section

variable (hc : c.Sound names) {m n x y : Int} (hm : Ope.plainNumbers.has m = true)
  (hn : Ope.plainNumbers.has n = true) (hx : c.number m = .ok x) (hy : c.number n = .ok y)

include hc hm hn hx hy

theorem Sound.number_lt_iff : m < n ↔ x < y := by
  refine ⟨fun h => hc.number_lt m n x y hm hn h hx hy, fun h => ?_⟩
  rcases Int.lt_trichotomy m n with hlt | rfl | hgt
  · exact hlt
  · have := Except.ok.inj (hx.symm.trans hy)
    omega
  · have := hc.number_lt n m y x hn hm hgt hy hx
    omega

theorem Sound.number_iff : m = n ↔ x = y := by
  have hlt := hc.number_lt_iff hm hn hx hy
  have hgt := hc.number_lt_iff hn hm hy hx
  omega

end

theorem commaFree_label (c : Ciphers) (s : String) : CommaFree (c.label s) :=
  Base64.comma_not_mem_encode _

theorem commaFree_name (h : c.name s = .ok x) : CommaFree x := by
  unfold name at h
  cases hb : c.nameBytes s with
  | error e =>
    rw [hb] at h
    cases h
  | ok bs =>
    rw [hb] at h
    cases h
    exact Base64.comma_not_mem_encode _

theorem commaFree_kind (h : c.SealsKind s x) : CommaFree x := by
  unfold SealsKind at h
  split at h
  · exact h ▸ c.commaFree_label s
  · exact commaFree_name h

end Ciphers

/-! ### Tokens and their sealed forms -/

namespace Sealing

variable {nonces : Nat → Bytes} {c : Ciphers} {all : List Token}

variable {t t' : Token}

theorem sealAt_eq_ok_iff : sealAt nonces c all t = .ok t' ↔
    ∃ n', sealToken nonces c t (placeIn all t.id) = (.ok t', n') := by
  unfold sealAt
  generalize sealToken nonces c t (placeIn all t.id) = r
  obtain ⟨o, n⟩ := r
  simp

theorem sealAt_site_iff {i : Nat} {m : Mark} :
    sealAt nonces c all (.site i m) = .ok t' ↔ ∃ m', t' = .site i m' ∧
      c.SealsKind m.kind m'.kind ∧ c.SealsMark (nonces (placeIn all i)) m m' := by
  simp only [sealAt_eq_ok_iff, sealToken_site_iff, Token.id]
  constructor
  · rintro ⟨_, m', ht, hk, hm, _⟩
    exact ⟨m', ht, hk, hm⟩
  · rintro ⟨m', ht, hk, hm⟩
    exact ⟨_, m', ht, hk, hm, rfl⟩

theorem sealAt_jump_iff {i : Nat} {m : Mark} {g : String} {as : List Token} :
    sealAt nonces c all (.jump i m g as) = .ok t' ↔ ∃ m' g' as', t' = .jump i m' g' as' ∧
      m'.kind = c.label m.kind ∧ c.SealsMark (nonces (placeIn all i)) m m' ∧ c.name g = .ok g' ∧
      ∃ n', sealTokens nonces c as (placeIn all i + 1) = (.ok as', n') := by
  simp only [sealAt_eq_ok_iff, sealToken_jump_iff, Token.id]
  constructor
  · rintro ⟨n', m', g', as', ht, hk, hm, hg, has⟩
    exact ⟨m', g', as', ht, hk, hm, hg, n', has⟩
  · rintro ⟨m', g', as', ht, hk, hm, hg, n', has⟩
    exact ⟨n', m', g', as', ht, hk, hm, hg, has⟩

theorem sealAt_mark (h : sealAt nonces c all t = .ok t') :
    c.SealsMark (nonces (placeIn all t.id)) t.mark t'.mark := by
  cases t with
  | site i m =>
    obtain ⟨m', rfl, _, hm⟩ := sealAt_site_iff.mp h
    exact hm
  | jump i m g as =>
    obtain ⟨m', g', as', rfl, _, hm, _⟩ := sealAt_jump_iff.mp h
    exact hm

theorem sealAt_kind (ht : t.Regular) (h : sealAt nonces c all t = .ok t') :
    c.SealsKind t.kind t'.kind := by
  cases t with
  | site i m =>
    obtain ⟨m', rfl, hk, _⟩ := sealAt_site_iff.mp h
    exact hk
  | jump i m g as =>
    obtain ⟨m', g', as', rfl, hk, _⟩ := sealAt_jump_iff.mp h
    have hcall : m.kind = Special.call.name := ht
    have hspecial := c.sealsKind_special .call
    simp only [Token.kind, Token.mark, hk]
    rwa [hcall]

theorem sealAt_commaFree (h : sealAt nonces c all t = .ok t') : ∀ s ∈ t'.texts, CommaFree s := by
  have hmark : ∀ {nonce m m'}, c.SealsMark nonce m m' → CommaFree m'.line.render ∧
      CommaFree m'.split.render ∧ CommaFree m'.scope ∧ CommaFree m'.file := by
    intro nonce m m' hm
    obtain ⟨line, hline, hline'⟩ := hm.line
    obtain ⟨split, hsplit, hsplit'⟩ := hm.split
    rw [hline', hsplit']
    exact ⟨Ciphers.commaFree_name hline, Ciphers.commaFree_name hsplit,
      Ciphers.commaFree_name hm.scope, Cipher.comma_not_mem_sealWhole hm.file⟩
  intro s hs
  cases t with
  | site i m =>
    obtain ⟨m', rfl, hk, hm⟩ := sealAt_site_iff.mp h
    obtain ⟨hline, hsplit, hscope, hfile⟩ := hmark hm
    simp only [Token.texts, List.mem_cons, List.not_mem_nil, or_false] at hs
    rcases hs with rfl | rfl | rfl | rfl | rfl
    · exact Ciphers.commaFree_kind hk
    · exact hline
    · exact hsplit
    · exact hscope
    · exact hfile
  | jump i m g as =>
    obtain ⟨m', g', as', rfl, hk, hm, hg, _⟩ := sealAt_jump_iff.mp h
    obtain ⟨hline, hsplit, hscope, hfile⟩ := hmark hm
    simp only [Token.texts, List.mem_cons, List.not_mem_nil, or_false] at hs
    rcases hs with rfl | rfl | rfl | rfl | rfl | rfl
    · exact hk ▸ c.commaFree_label _
    · exact hline
    · exact hsplit
    · exact hscope
    · exact hfile
    · exact Ciphers.commaFree_name hg

end Sealing

def Mark.SameBranch (m n : Mark) : Prop :=
  m.depth = n.depth ∧ m.order = n.order ∧ m.flow = n.flow ∧ m.split.render = n.split.render

theorem Token.same_rebound (o : Token) {p q : Mark} (h : p.SameBranch q) :
    (o.rebound p).same (o.rebound q) = true := by
  obtain ⟨hdepth, horder, hflow, hsplit⟩ := h
  cases o with
  | site i m =>
    refine same_site (fields_eq_iff.mpr ?_) rfl
    exact ⟨rfl, rfl, rfl, hdepth, horder, hflow, hsplit, rfl⟩
  | jump i m g as =>
    refine same_jump (fields_eq_iff.mpr ?_) rfl rfl
    exact ⟨rfl, rfl, rfl, hdepth, horder, hflow, hsplit, rfl⟩

theorem Ciphers.SealsMark.rebound {c : Ciphers} {nonce : Bytes} {m p q m' n' : Mark}
    (hm : c.SealsMark nonce (Search.boundMark p m) m')
    (hn : c.SealsMark nonce (Search.boundMark q m) n') (h : p.SameBranch q) :
    m'.line.render = n'.line.render ∧ m'.pos = n'.pos ∧ m'.scope = n'.scope ∧ m'.file = n'.file ∧
      m'.SameBranch n' := by
  obtain ⟨hdepth, horder, hflow, hsplit⟩ := h
  have hnumber : ∀ {a b x y : Int}, a = b → c.number a = .ok x → c.number b = .ok y → x = y :=
    fun hab hx hy => Except.ok.inj (hx.symm.trans (hab ▸ hy))
  have hname : ∀ {a b : String} {l l' : Label}, a = b → (∃ s, c.name a = .ok s ∧ l = .text s) →
      (∃ s, c.name b = .ok s ∧ l' = .text s) → l.render = l'.render := by
    rintro a b l l' rfl ⟨s, hs, rfl⟩ ⟨s', hs', rfl⟩
    exact Except.ok.inj (hs.symm.trans hs')
  exact ⟨hname rfl hm.line hn.line, hnumber rfl hm.pos hn.pos,
    Except.ok.inj (hm.scope.symm.trans hn.scope), Except.ok.inj (hm.file.symm.trans hn.file),
    hnumber hdepth hm.depth hn.depth, hnumber horder hm.order hn.order,
    hnumber hflow hm.flow hn.flow, hname hsplit hm.split hn.split⟩

namespace Sealing

variable {nonces : Nat → Bytes} {c : Ciphers} {all : List Token} {d : Structure} {t : Token}

theorem same_sealAt_rebound {o a' b' : Token} {p q : Mark} (h : p.SameBranch q)
    (ha : sealAt nonces c all (o.rebound p) = .ok a')
    (hb : sealAt nonces c all (o.rebound q) = .ok b') : a'.same b' = true := by
  cases o with
  | site i m =>
    obtain ⟨m', rfl, hk, hm⟩ := sealAt_site_iff.mp ha
    obtain ⟨n', rfl, hk', hn⟩ := sealAt_site_iff.mp hb
    obtain ⟨hline, hpos, hscope, hfile, hdepth, horder, hflow, hsplit⟩ := hm.rebound hn h
    have hkind : m'.kind = n'.kind := by
      unfold Ciphers.SealsKind Search.boundMark at hk hk'
      split at hk
      · rw [if_pos ‹_›] at hk'
        exact hk.trans hk'.symm
      · rw [if_neg ‹_›] at hk'
        exact Except.ok.inj (hk.symm.trans hk')
    refine Token.same_site (Token.fields_eq_iff.mpr ?_) hfile
    exact ⟨hkind, hline, hpos, hdepth, horder, hflow, hsplit, hscope⟩
  | jump i m g as =>
    obtain ⟨m', g', as', rfl, hk, hm, hg, _, has⟩ := sealAt_jump_iff.mp ha
    obtain ⟨n', g₂, as₂, rfl, hk', hn, hg', _, has'⟩ := sealAt_jump_iff.mp hb
    obtain ⟨hline, hpos, hscope, hfile, hdepth, horder, hflow, hsplit⟩ := hm.rebound hn h
    obtain rfl : g' = g₂ := Except.ok.inj (hg.symm.trans hg')
    have hargs := has.symm.trans has'
    simp only [Prod.mk.injEq, Except.ok.injEq] at hargs
    refine Token.same_jump (Token.fields_eq_iff.mpr ?_) hfile (by rw [hargs.1])
    exact ⟨hk.trans hk'.symm, hline, hpos, hdepth, horder, hflow, hsplit, hscope⟩

variable {a : Token} {R : String → String → Prop}

theorem branch_of_same_sealAt (hd : d.Orderly) (hc : c.Sound d.sealedNames) {a' b b' : Token}
    (hma : d.Meets a) (hmb : d.Meets b) (ha : sealAt nonces c d.occurrences a = .ok a')
    (hb : sealAt nonces c d.occurrences b = .ok b') (h : a'.same b' = true) :
    a.pos = b.pos ∧ a'.mark.file = b'.mark.file ∧ a.mark.SameBranch b.mark := by
  have hsa := sealAt_mark ha
  have hsb := sealAt_mark hb
  have hra := hma.inRange hd
  have hrb := hmb.inRange hd
  obtain ⟨hfields, hfile⟩ := Token.fields_of_same (sealAt_commaFree ha) (sealAt_commaFree hb) h
  obtain ⟨_, _, hpos, hdepth, horder, hflow, hsplit, _⟩ := Token.fields_eq_iff.mp hfields
  obtain ⟨x, hx, hx'⟩ := hsa.split
  obtain ⟨y, hy, hy'⟩ := hsb.split
  have hxy : x = y := by simpa [Token.split, hx', hy', Label.render] using hsplit
  exact ⟨(hc.number_iff hra.1 hrb.1 hsa.pos hsb.pos).mpr hpos, hfile,
    (hc.number_iff hra.2.1 hrb.2.1 hsa.depth hsb.depth).mpr hdepth,
    (hc.number_iff hra.2.2.1 hrb.2.2.1 hsa.order hsb.order).mpr horder,
    (hc.number_iff hra.2.2.2 hrb.2.2.2 hsa.flow hsb.flow).mpr hflow,
    (hc.distinguishes.name_iff (marks_subset hma.names_subset).2.2 (marks_subset hmb.names_subset).2.2 hx hy).mpr
      hxy⟩

/-! ### The searches agree -/

def correspondence (nonces : Nat → Bytes) (c : Ciphers) (d : Structure) : Correspondence where
  token t t' := d.Meets t ∧ sealAt nonces c d.occurrences t = .ok t'
  imported t t' := Ope.plainNumbers.has t.pos = true ∧ c.number t.pos = .ok t'.pos ∧
    match t, t' with
    | .site _ _, .site _ _ => True
    | .jump _ _ g _, .jump _ _ g' _ => g ∈ d.sealedNames ∧ c.name g = .ok g'
    | _, _ => False
  scope n n' := n ∈ d.sealedNames ∧ ∃ x, c.name n = .ok x ∧ n' = c.label x
  key k k' := Special.asName k ⊆ d.sealedNames ∧ ∃ x, c.SealsKind k x ∧ k' = c.label x

theorem imported_of_sealAt {t t' : Token} (hrange : t.InRange) (hnames : t.names ⊆ d.sealedNames)
    (h : sealAt nonces c d.occurrences t = .ok t') : (correspondence nonces c d).imported t t' := by
  refine ⟨hrange.1, (sealAt_mark h).pos, ?_⟩
  cases t with
  | site i m =>
    obtain ⟨m', rfl, _⟩ := sealAt_site_iff.mp h
    trivial
  | jump i m g as =>
    obtain ⟨m', g', as', rfl, _, _, hg, _⟩ := sealAt_jump_iff.mp h
    exact ⟨hnames (by simp [Token.names]), hg⟩

theorem sealed_args (hd : d.Orderly) {i i' : Nat} {m m' : Mark} {g g' : String}
    {as as' : List Token} (hmeets : d.Meets (.jump i m g as))
    (h : sealAt nonces c d.occurrences (.jump i m g as) = .ok (.jump i' m' g' as')) :
    List.Forall₂ (correspondence nonces c d).token as as' := by
  obtain ⟨_, _, _, heq, _, _, _, n', has⟩ := sealAt_jump_iff.mp h
  obtain ⟨_, _, _, rfl⟩ := Token.jump.inj heq
  obtain ⟨o, hflows, q, _, ho⟩ := hmeets
  obtain ⟨m₀, rfl⟩ : ∃ m₀, o = .jump i m₀ g as := by
    cases o with
    | site j n => simp [Token.rebound] at ho
    | jump j n g₀ bs =>
      simp only [Token.rebound, Token.jump.injEq] at ho
      obtain ⟨rfl, _, rfl, rfl⟩ := ho
      exact ⟨n, rfl⟩
  obtain ⟨pre, post, hsplit⟩ := Structure.occurrences_within hflows.mem_occurrences
  rw [Token.occurrences, List.append_assoc, List.cons_append] at hsplit
  have hplace : placeIn d.occurrences i = pre.length := by
    have hids := hd.ids
    rw [← hsplit] at hids ⊢
    exact placeIn_append hids
  have hloc : d.occurrences = (pre ++ [.jump i m₀ g as]) ++ (Token.occurrencesIn as ++ post) := by
    rw [← hsplit, List.append_assoc, List.singleton_append]
  have hsealed := sealTokens_located hd.ids hloc (by simpa [hplace] using has)
  have hmeet : ∀ a ∈ as, d.Meets a := fun a ha =>
    (hflows.of_mem (Token.mem_occurrences_arg ha)).meets
  exact (List.forall₂_and_left _ _ |>.mpr ⟨hmeet, hsealed⟩)

theorem asName_special (p : Special) : Special.asName p.name ⊆ d.sealedNames := by
  rw [Special.asName, if_pos (Special.isName_name p)]
  exact List.nil_subset _

theorem asName_kind (hd : d.Orderly) (h : d.Meets t) : Special.asName t.kind ⊆ d.sealedNames := by
  have hreg := h.regular hd
  have hnames := h.names_subset
  cases t with
  | site i m => exact fun s hs => hnames (List.mem_append_left _ hs)
  | jump i m g as =>
    have hcall : m.kind = Special.call.name := hreg
    simp only [Token.kind, Token.mark, hcall]
    exact asName_special .call

theorem scope_mem (h : d.Meets t) : t.scope ∈ d.sealedNames := (marks_subset h.names_subset).1

theorem split_mem (h : d.Meets t) : t.split.render ∈ d.sealedNames :=
  (marks_subset h.names_subset).2.2

theorem split_eq (hd : d.Orderly) {b : Token} (ha : d.Meets a) (hb : d.Meets b)
    (h : a.split.render = b.split.render) : a.split = b.split := by
  obtain ⟨o, _, q, hq, rfl⟩ := ha
  obtain ⟨u, _, r, hr, rfl⟩ := hb
  have hsplit : ∀ (t : Token) (m : Mark), (t.rebound m).split = m.split := by
    intro t m
    cases t <;> rfl
  rw [hsplit, hsplit] at h ⊢
  exact hd.splits q hq r hr h

theorem Meets_bound {p : Token} (hp : d.Meets p) (ha : d.Meets a) : d.Meets (a.rebound p.mark) := by
  obtain ⟨o, ho, q, hq, rfl⟩ := ha
  obtain ⟨u, _, r, hr, rfl⟩ := hp
  refine ⟨o, ho, r, hr, ?_⟩
  cases o <;> cases u <;> rfl

theorem SealsMark_bound {nonce nonce' : Bytes} {p p' m m' : Mark} (hp : c.SealsMark nonce p p')
    (hm : c.SealsMark nonce' m m') :
    c.SealsMark nonce' (Search.boundMark p m) (Search.boundMark p' m') :=
  ⟨hm.line, hm.pos, hp.depth, hp.order, hp.flow, hp.split, hm.scope, hm.file⟩

theorem correspondence_lawful (hd : d.Orderly) (hc : c.Sound d.sealedNames) :
    (correspondence nonces c d).Lawful .plain (.hiddenBy c.label) where
  scope_iff _ _ _ _ ha hb := hc.distinguishes.scope_iff ha hb
  key_iff _ _ _ _ ha hb := hc.distinguishes.key_iff ha hb
  place p := ⟨asName_special p, _, c.sealsKind_special p, rfl⟩
  imports_ne _ hp := Lexicon.plain_place_ne_imports hp
  imported_of_token _ _ ht := imported_of_sealAt (ht.1.inRange hd) ht.1.names_subset ht.2
  token_of_imported u u' _ _ hu hk _ := by
    -- no token that the search meets has the kind of an import
    have hreg := hu.1.regular hd
    cases u with
    | site i m => exact absurd hk hreg.2
    | jump i m g as =>
      have hcall : m.kind = Special.call.name := hreg
      exact absurd (hcall.symm.trans hk) (by decide)
  target t t' ht := by
    obtain ⟨_, _, ht⟩ := ht
    cases t with
    | site i m =>
      cases t' with
      | site i' m' => trivial
      | jump i' m' g' as' => exact ht.elim
    | jump i m g as =>
      cases t' with
      | site i' m' => exact ht.elim
      | jump i' m' g' as' => exact ⟨ht.1, g', ht.2, rfl⟩
  args _ _ _ _ _ _ _ _ ht := sealed_args hd ht.1 ht.2
  pos_iff _ _ _ _ ha hb := hc.number_lt_iff ha.1 hb.1 ha.2.1 hb.2.1
  kind t t' ht := ⟨asName_kind hd ht.1, t'.kind, sealAt_kind (ht.1.regular hd) ht.2, rfl⟩
  home t t' ht := ⟨scope_mem ht.1, t'.scope, (sealAt_mark ht.2).scope, rfl⟩
  word_iff t t' p ht := hc.distinguishes.kind_iff (asName_kind hd ht.1) (asName_special p)
    (sealAt_kind (ht.1.regular hd) ht.2) (c.sealsKind_special p)
  home_iff _ _ _ _ ha hb := hc.distinguishes.name_iff (scope_mem ha.1) (scope_mem hb.1) (sealAt_mark ha.2).scope
    (sealAt_mark hb.2).scope
  depth_iff _ _ _ _ ha hb := hc.number_lt_iff (ha.1.inRange hd).2.1 (hb.1.inRange hd).2.1
    (sealAt_mark ha.2).depth (sealAt_mark hb.2).depth
  order_iff _ _ _ _ ha hb := hc.number_iff (ha.1.inRange hd).2.2.1 (hb.1.inRange hd).2.2.1
    (sealAt_mark ha.2).order (sealAt_mark hb.2).order
  flow_iff _ _ _ _ ha hb := hc.number_iff (ha.1.inRange hd).2.2.2 (hb.1.inRange hd).2.2.2
    (sealAt_mark ha.2).flow (sealAt_mark hb.2).flow
  split_iff _ _ _ _ ha hb := by
    obtain ⟨x, hx, hx'⟩ := (sealAt_mark ha.2).split
    obtain ⟨y, hy, hy'⟩ := (sealAt_mark hb.2).split
    have hname := hc.distinguishes.name_iff (split_mem ha.1) (split_mem hb.1) hx hy
    rw [Token.split, Token.split, Token.split, Token.split, hx', hy', Label.text.injEq, ← hname]
    exact ⟨congrArg _, split_eq hd ha.1 hb.1⟩
  bound_site p p' a a' hp ha hk := by
    have hbound := Meets_bound hp.1 ha.1
    have hreg := ha.1.regular hd
    cases a with
    | site i m =>
      obtain ⟨m', rfl, hkind, hm⟩ := sealAt_site_iff.mp ha.2
      exact ⟨hbound, sealAt_site_iff.mpr ⟨_, rfl, hkind, SealsMark_bound (sealAt_mark hp.2) hm⟩⟩
    | jump i m g as => exact absurd hreg hk
  bound_jump p p' i m g as i' m' g' as' hp ha := by
    have hbound := Meets_bound hp.1 ha.1
    obtain ⟨_, _, _, heq, hkind, hm, hg, has⟩ := sealAt_jump_iff.mp ha.2
    obtain ⟨rfl, rfl, rfl, rfl⟩ := Token.jump.inj heq
    exact ⟨hbound, sealAt_jump_iff.mpr ⟨_, _, _, rfl, hkind, SealsMark_bound (sealAt_mark hp.2) hm,
      hg, has⟩⟩

/-! ### Structures -/

theorem nodup_of_related {ns ns' : List String}
    (h : List.Forall₂ R ns ns') (hR : ∀ a a' b b', R a a' → R b b' → a' = b' → a = b)
    (hns : ns.Nodup) : ns'.Nodup := by
  induction h with
  | nil => exact List.nodup_nil
  | @cons a a' l l' ha hl ih =>
    obtain ⟨hnot, hnodup⟩ := List.nodup_cons.mp hns
    refine List.nodup_cons.mpr ⟨fun hmem => hnot ?_, ih hnodup⟩
    obtain ⟨i, hi, hget⟩ := List.getElem_of_mem hmem
    have hlen := hl.length_eq
    have hrel := hl.get (by omega) hi
    rw [List.get_eq_getElem, List.get_eq_getElem, hget] at hrel
    rw [hR _ _ _ _ ha hrel rfl]
    exact List.getElem_mem _

section

variable {α β : Type} {t : Table α} {es : List (String × β)}
  (h : List.Forall₂ (fun e e' => R e.1 e'.1) t es)
  (hR : ∀ a a' b b', R a a' → R b b' → a' = b' → a = b) (ht : t.names.Nodup)

include h hR ht

theorem nodup_entries : (es.map Prod.fst).Nodup := by
  refine nodup_of_related ?_ hR ht
  rw [Table.names, List.forall₂_map_left_iff, List.forall₂_map_right_iff]
  exact h

theorem ofEntries_of_related : Table.ofEntries es = es :=
  Table.ofEntries_of_nodup (nodup_entries h hR ht)

end

theorem sealed_scope (hd : d.Orderly) (hc : c.Sound d.sealedNames) {e : String × Scope} (he : e ∈ d)
    {ls : List (String × List Token)} (h : List.Forall₂ (SealsList nonces c d.occurrences) e.2 ls) :
    (correspondence nonces c d).Scopes .plain e.2 (Table.ofEntries ls) := by
  have hin := (List.forall₂_and_left _ _).mpr ⟨fun l hl => hl, h⟩
  have hlists : (correspondence nonces c d).Scopes .plain e.2 ls := by
    refine hin.imp fun l l' hll => ?_
    obtain ⟨hl, ⟨k, hk, hkey⟩, htokens⟩ := hll
    have hmem := Structure.key_subset_sealedNames he hl
    refine ⟨⟨hmem, k, hk, hkey⟩, ?_⟩
    have htokens := (List.forall₂_and_left _ _).mpr ⟨fun t ht => ht, htokens⟩
    refine htokens.imp fun t t' htt => ?_
    have hoccurs : t ∈ Token.occurrencesIn l.2 :=
      Token.mem_occurrencesIn.mpr ⟨t, htt.1, t.mem_occurrences_self⟩
    have hall : t ∈ d.occurrences :=
      Structure.mem_occurrences.mpr ⟨e, he, l, hl, t, htt.1, t.mem_occurrences_self⟩
    unfold Correspondence.held
    split
    · exact imported_of_sealAt (hd.inRange t hall) (Structure.names_subset_sealedNames hall) htt.2
    · exact ⟨Structure.Flows.meets ⟨e, he, l, hl, ‹_›, hoccurs⟩, htt.2⟩
  have hkeys := hlists.imp fun _ _ hl => hl.1
  rw [ofEntries_of_related hkeys (fun _ _ _ _ ha hb => (hc.distinguishes.key_iff ha hb).mpr) (hd.distinct.2 e he)]
  exact hlists

theorem sealStructure_flows (hd : d.Orderly) (hc : c.Sound d.sealedNames) {e : Structure} {n : Nat}
    (h : sealStructure nonces c d 0 = (.ok e, n)) : (correspondence nonces c d).Flows .plain d e := by
  obtain ⟨es, n, hes, hpure⟩ := Act.bind_eq_ok_iff.mp h
  obtain ⟨rfl, rfl⟩ := pure_eq_ok_iff.mp hpure
  have hloc : d.occurrences = [] ++ ((d.flatMap fun e => e.2.flatMap fun l =>
      Token.occurrencesIn l.2) ++ []) := by simp [Structure.occurrences]
  have hscopes := (List.forall₂_and_left _ _).mpr
    ⟨fun e he => he, sealScopes_located hd.ids hloc hes⟩
  have hflows : (correspondence nonces c d).Flows .plain d es := by
    refine hscopes.imp fun e e' hee => ?_
    obtain ⟨he, ⟨x, hx, hname⟩, ls, hls, hlists⟩ := hee
    have hmem := Structure.scope_mem_sealedNames he
    exact ⟨⟨hmem, x, hx, hname⟩, hls ▸ sealed_scope hd hc he hlists⟩
  have hnames := hflows.imp fun _ _ he => he.1
  rwa [ofEntries_of_related hnames (fun _ _ _ _ ha hb => (hc.distinguishes.scope_iff ha hb).mpr) hd.distinct.1]

theorem exists_sealed (nonces : Nat → Bytes) (hrange : ∀ t ∈ d.occurrences, t.InRange)
    (hfiles : ∀ t ∈ d.occurrences, t.mark.file.length < 2 ^ 32) (hc : c.Total d.sealedNames) :
    ∃ e n, sealStructure nonces c d 0 = (.ok e, n) := by
  have hcover : ∀ e ∈ d, e.1 ∈ d.sealedNames ∧ ∀ l ∈ e.2, Special.asName l.1 ⊆ d.sealedNames ∧
      ∀ u ∈ Token.occurrencesIn l.2, u.Covered d.sealedNames := by
    intro e he
    refine ⟨Structure.scope_mem_sealedNames he, fun l hl => ?_⟩
    refine ⟨Structure.key_subset_sealedNames he hl, fun u hu => ?_⟩
    obtain ⟨t, ht, hu⟩ := Token.mem_occurrencesIn.mp hu
    have hall := Structure.mem_occurrences.mpr ⟨e, he, l, hl, t, ht, hu⟩
    exact ⟨Structure.names_subset_sealedNames hall, hrange u hall, hfiles u hall⟩
  obtain ⟨es, n, hes⟩ := exists_sealScopes hc d 0 hcover
  exact ⟨_, n, Act.bind_eq_ok_iff.mpr ⟨es, n, hes, rfl⟩⟩

end Sealing

end MaskedTaint
