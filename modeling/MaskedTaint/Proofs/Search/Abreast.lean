import MaskedTaint.Proofs.Search.Chains

/-! Two searches abreast. They see the same lists, except those under some keys; imports may be sorted
in one of them and not yet in the other. Since imports are sorted before they are used, and sorting
keeps the order of imports at the same place, the two searches take the same steps. -/

namespace MaskedTaint

/-! ### Sorting -/

namespace Search

def SortedBack (ts : List Token) : Prop := ts.Pairwise fun a b => b.pos ≤ a.pos

theorem sortedBack_sortImports (ts : List Token) : SortedBack (sortImports ts) := by
  have h : (ts.mergeSort fun a b => decide (b.pos ≤ a.pos)).Pairwise fun a b => decide (b.pos ≤ a.pos) :=
    List.pairwise_mergeSort (fun x y z hxy hyz => ?_) (fun x y => ?_) ts
  · exact h.imp of_decide_eq_true
  · simp only [decide_eq_true_eq] at hxy hyz ⊢
    omega
  · simp only [Bool.or_eq_true, decide_eq_true_eq]
    omega

theorem filter_sortImports (ts : List Token) (k : Int) :
    (sortImports ts).filter (·.pos == k) = ts.filter (·.pos == k) := by
  have hsub : (ts.filter (·.pos == k)).Sublist (sortImports ts) := by
    refine List.sublist_mergeSort (fun x y z hxy hyz => ?_) (fun x y => ?_) ?_ List.filter_sublist
    · simp only [decide_eq_true_eq] at hxy hyz ⊢
      omega
    · simp only [Bool.or_eq_true, decide_eq_true_eq]
      omega
    · refine List.pairwise_of_forall_mem_list fun a ha b hb => ?_
      have ha := (List.mem_filter.mp ha).2
      have hb := (List.mem_filter.mp hb).2
      simp only [beq_iff_eq] at ha hb
      simp [ha, hb]
  have hfilter := hsub.filter (·.pos == k)
  rw [List.filter_filter] at hfilter
  simp only [Bool.and_self] at hfilter
  exact (hfilter.eq_of_length ((List.mergeSort_perm ts _).filter _).length_eq.symm).symm

theorem SortedBack.eq {ts us : List Token} (hts : SortedBack ts) (hus : SortedBack us)
    (h : ∀ k, ts.filter (·.pos == k) = us.filter (·.pos == k)) : ts = us := by
  induction ts generalizing us with
  | nil =>
    cases us with
    | nil => rfl
    | cons u us => simpa using h u.pos
  | cons t ts ih =>
    have hmem : t ∈ us := by
      have ht : t ∈ us.filter (·.pos == t.pos) := h t.pos ▸ List.mem_filter.mpr ⟨List.mem_cons_self, by simp⟩
      exact (List.mem_filter.mp ht).1
    cases us with
    | nil => cases hmem
    | cons u us =>
      have hback : u ∈ t :: ts := by
        have hu : u ∈ (t :: ts).filter (·.pos == u.pos) :=
          h u.pos ▸ List.mem_filter.mpr ⟨List.mem_cons_self, by simp⟩
        exact (List.mem_filter.mp hu).1
      have hle : t.pos ≤ u.pos := (List.mem_cons.mp hmem).elim (fun hu => hu ▸ Int.le_refl _)
        fun hu => List.rel_of_pairwise_cons hus hu
      have hge : u.pos ≤ t.pos := (List.mem_cons.mp hback).elim (fun ht => ht ▸ Int.le_refl _)
        fun ht => List.rel_of_pairwise_cons hts ht
      have hpos : u.pos = t.pos := Int.le_antisymm hge hle
      have hfirst := h t.pos
      simp only [List.filter_cons, hpos, beq_self_eq_true, if_true, List.cons.injEq] at hfirst
      obtain ⟨rfl, hfirst⟩ := hfirst
      refine congrArg (t :: ·) (ih hts.of_cons hus.of_cons fun k => ?_)
      by_cases hk : t.pos = k
      · exact hk ▸ hfirst
      · simpa [List.filter_cons, hk] using h k

theorem sortImports_append {ts ts' : List Token} (h : sortImports ts' = sortImports ts) (us : List Token) :
    sortImports (ts' ++ us) = sortImports (ts ++ us) := by
  refine (sortedBack_sortImports _).eq (sortedBack_sortImports _) fun k => ?_
  rw [filter_sortImports, filter_sortImports, List.filter_append, List.filter_append,
    ← filter_sortImports ts', h, filter_sortImports]

end Search

namespace Structure

/-- Two structures with the same lists, except those under the keys `X`. Imports agree once they are
sorted, and those of the scopes `E` agree as they are. -/
structure Matches (X : String → Prop) (E : List String) (e e' : Structure) : Prop where
  has : ∀ scope, e'.has scope = e.has scope
  isSome : ∀ scope key, (e'.tokens? scope key).isSome = (e.tokens? scope key).isSome
  imports : ∀ scope, (e'.tokens? scope Special.imports.name).map Search.sortImports =
    (e.tokens? scope Special.imports.name).map Search.sortImports
  settled : ∀ scope ∈ E, e'.tokens? scope Special.imports.name = e.tokens? scope Special.imports.name
  others : ∀ scope key, ¬ X key → key ≠ Special.imports.name →
    e'.tokens? scope key = e.tokens? scope key

variable {X : String → Prop} {E : List String} {e e' : Structure} {scope key : String}
  {ts ts' : List Token}

theorem has_putTokens_of_isSome (h : (e.tokens? scope key).isSome = true) (other : String) :
    (e.putTokens scope key ts).has other = e.has other := by
  by_cases ho : other = scope
  · subst ho
    rw [has_of_tokens? h]
    exact Table.has_put_self _ _ _
  · rw [Table.has, putTokens, Table.get?_put_of_ne _ _ ho, Table.has]

namespace Matches

section

variable (h : Matches X E e e')

include h

theorem tokens? (hkey : ¬ X key) (himports : key = Special.imports.name → scope ∈ E) :
    e'.tokens? scope key = e.tokens? scope key := by
  by_cases hk : key = Special.imports.name
  · rw [hk, h.settled scope (himports hk)]
  · exact h.others scope key hkey hk

theorem mono {E' : List String} (hE : E' ⊆ E) : Matches X E' e e' :=
  { h with settled := fun scope hscope => h.settled scope (hE hscope) }

/-- Lists are put in their places on both sides, the same ones unless they are imports. -/
theorem putTokens (hts : (e.tokens? scope key).isSome = true) {E' : List String}
    (himports : key = Special.imports.name → Search.sortImports ts' = Search.sortImports ts)
    (hsettled : ∀ other ∈ E', other ∈ E ∨ other = scope ∧ key = Special.imports.name ∧ ts' = ts)
    (hkept : key = Special.imports.name → scope ∈ E → ts' = ts)
    (hothers : ¬ X key → key ≠ Special.imports.name → ts' = ts) :
    Matches X E' (e.putTokens scope key ts) (e'.putTokens scope key ts') where
  has other := by
    rw [has_putTokens_of_isSome hts, has_putTokens_of_isSome ((h.isSome scope key).trans hts), h.has]
  isSome other key' := by
    rw [tokens?_putTokens, tokens?_putTokens]
    split
    · rfl
    · exact h.isSome other key'
  imports other := by
    rw [tokens?_putTokens, tokens?_putTokens]
    split
    · rename_i hsame
      rw [Option.map_some, Option.map_some, himports hsame.2.symm]
    · exact h.imports other
  settled other hother := by
    rw [tokens?_putTokens, tokens?_putTokens]
    split
    · rename_i hsame
      rcases hsettled other hother with hE | ⟨-, -, heq⟩
      · rw [hkept hsame.2.symm (hsame.1 ▸ hE)]
      · rw [heq]
    · rename_i hne
      rcases hsettled other hother with hE | ⟨rfl, rfl, -⟩
      · exact h.settled other hE
      · exact absurd ⟨rfl, rfl⟩ hne
  others other key' hX hk := by
    rw [tokens?_putTokens, tokens?_putTokens]
    split
    · rename_i hsame
      rw [hothers (hsame.2 ▸ hX) (hsame.2 ▸ hk)]
    · exact h.others other key' hX hk

theorem sort_both (hts : e.tokens? scope Special.imports.name = some ts)
    (hts' : e'.tokens? scope Special.imports.name = some ts') :
    Matches X (scope :: E) (e.putTokens scope Special.imports.name (Search.sortImports ts))
      (e'.putTokens scope Special.imports.name (Search.sortImports ts')) := by
  have hsorted : Search.sortImports ts' = Search.sortImports ts := by
    simpa [hts, hts'] using h.imports scope
  rw [hsorted]
  refine h.putTokens (hts ▸ rfl) (fun _ => rfl) (fun other hother => ?_) (fun _ _ => rfl) fun _ _ => rfl
  exact (List.mem_cons.mp hother).symm.imp_right fun ho => ⟨ho, rfl, rfl⟩

theorem append (hkey : ¬ X key) (hlist : (e.tokens? scope key).isSome = true)
    (us : List Token) : Matches X E (e.append scope key us) (e'.append scope key us) := by
  obtain ⟨ts, hts⟩ := Option.isSome_iff_exists.mp hlist
  obtain ⟨ts', hts'⟩ := Option.isSome_iff_exists.mp ((h.isSome scope key).trans hlist)
  rw [Structure.append, Structure.append, hts, hts']
  refine h.putTokens hlist (fun hk => ?_) (fun _ => .inl) (fun hk hE => ?_) fun hX hk => ?_
  · subst hk
    exact Search.sortImports_append (by simpa [hts, hts'] using h.imports scope) us
  · subst hk
    exact congrArg (· ++ us) (Option.some.inj (hts'.symm.trans ((h.settled scope hE).trans hts)))
  · exact congrArg (· ++ us) (Option.some.inj (hts'.symm.trans ((h.others scope key hX hk).trans hts)))

theorem settle (hnone : e.tokens? scope Special.imports.name = none) :
    Matches X (scope :: E) e e' := by
  have hnone' : e'.tokens? scope Special.imports.name = none := by
    have hsome := h.isSome scope Special.imports.name
    rw [hnone] at hsome
    exact Option.not_isSome_iff_eq_none.mp (by simp [hsome])
  refine { h with settled := fun other hother => ?_ }
  rcases List.mem_cons.mp hother with rfl | hother
  · rw [hnone, hnone']
  · exact h.settled other hother

end

end Matches

end Structure

namespace Search

/-- Two structures that are searched side by side. Lists under the keys `apart` may differ, `kinds` are
those that parameters have, and `idle` calls need not be looked into by both. -/
structure Pairing where
  first : Structure
  second : Structure
  apart : String → Prop
  kinds : String → Prop
  idle : Token → Prop

structure Pairing.Proper (P : Pairing) : Prop where
  kinds : ∀ key, P.kinds key → ¬ P.apart key
  params : (∀ key, P.kinds key) ∨ ¬ P.kinds Special.params.name ∧
    ∀ scope param, P.first.Entry scope Special.params.name param → P.kinds param.kind
  places : ∀ p ∈ [Special.params, .result, .call, .imports], ¬ P.apart p.name
  idle : ∀ c, P.idle c → ∃ i m target args, c = .jump i m target args ∧ P.first.has target = false
  same : ∀ c c' : Token, P.idle c → c'.same c = true → P.idle c'

structure Along (P : Pairing) (E : List String) (s s' : Search) : Prop where
  flows : Structure.Matches P.apart E s.flows s'.flows
  has : ∀ scope, s.flows.has scope = P.first.has scope
  kept : ∀ scope key, ¬ P.kinds key → key ≠ Special.imports.name →
    s.flows.tokens? scope key = P.first.tokens? scope key
  kept' : ∀ scope key, ¬ P.kinds key → key ≠ Special.imports.name →
    s'.flows.tokens? scope key = P.second.tokens? scope key
  analysed : ∀ c, ¬ P.idle c → c.isIn s'.analysed = c.isIn s.analysed

def Shared (P : Pairing) (E : List String) : Source → Prop
  | .stored scope key => ¬ P.apart key ∧ (key = Special.imports.name → scope ∈ E)
  | .fixed _ => True

def OwnKinds (P : Pairing) (v : View) : Prop := ∀ key ts, v.own.get? key = some ts → P.kinds key

variable {P : Pairing} {E E' : List String} {s s' : Search} {src : Source} {scope key : String}

theorem Along.mono (h : Along P E s s') (hE : E' ⊆ E) : Along P E' s s' :=
  { h with flows := h.flows.mono hE }

theorem Shared.mono (h : Shared P E src) (hE : E ⊆ E') : Shared P E' src := by
  cases src with
  | stored scope key => exact ⟨h.1, fun hk => hE (h.2 hk)⟩
  | fixed ts => trivial

theorem Along.read (h : Along P E s s') (hsrc : Shared P E src) : s'.read src = s.read src := by
  cases src with
  | stored scope key => rw [Search.read, Search.read, h.flows.tokens? hsrc.1 hsrc.2]
  | fixed ts => rfl

theorem Along.source? (h : Along P E s s') (v : View) (key : String) :
    s'.source? v key = s.source? v key := by
  rw [Search.source?, Search.source?, h.flows.isSome]

theorem Along.hasList (h : Along P E s s') (scope key : String) :
    s'.hasList scope key = s.hasList scope key := h.flows.isSome scope key

theorem shared_source? {v : View} (hsrc : s.source? v key = some src) (hkey : ¬ P.apart key)
    (hv : key = Special.imports.name → v.name ∈ E) : Shared P E src := by
  unfold Search.source? at hsrc
  split at hsrc
  · cases hsrc
    exact ⟨hkey, hv⟩
  · obtain ⟨ts, -, rfl⟩ := Option.map_eq_some_iff.mp hsrc
    trivial

theorem Along.param (hP : P.Proper) (h : Along P E s s') {param : Token}
    (hparam : param ∈ s.read (.stored scope Special.params.name)) : P.kinds param.kind := by
  rcases hP.params with hall | ⟨hnot, hkinds⟩
  · exact hall _
  · rw [Search.read, h.kept scope _ hnot (by decide)] at hparam
    cases hts : P.first.tokens? scope Special.params.name with
    | none => simp [hts] at hparam
    | some ts => exact hkinds scope param ⟨ts, hts, by simpa [hts] using hparam⟩

theorem Along.note (h : Along P E s s') (ts ts' : List Token)
    (hts : ∀ c, ¬ P.idle c → c.isIn ts' = c.isIn ts) :
    Along P E { s with analysed := s.analysed ++ ts } { s' with analysed := s'.analysed ++ ts' } := by
  refine { h with analysed := fun c hc => ?_ }
  have hsame := h.analysed c hc
  unfold Token.isIn at hsame hts ⊢
  rw [List.any_append, List.any_append, hsame, hts c hc]

theorem Along.put {ts ts' : List Token} (h : Along P E s s')
    (hflows : Structure.Matches P.apart E' (s.flows.putTokens scope key ts)
      (s'.flows.putTokens scope key ts'))
    (hlist : s.hasList scope key = true) (hkey : P.kinds key ∨ key = Special.imports.name) :
    Along P E' { s with flows := s.flows.putTokens scope key ts }
      { s' with flows := s'.flows.putTokens scope key ts' } := by
  have hother : ∀ (e : Structure) (us : List Token) (other key' : String), ¬ P.kinds key' →
      key' ≠ Special.imports.name → (e.putTokens scope key us).tokens? other key' = e.tokens? other key' := by
    intro e us other key' hkind himports
    refine Structure.tokens?_putTokens_of_ne e us ?_
    rintro ⟨-, rfl⟩
    exact hkey.elim hkind himports
  exact {
    flows := hflows
    has := fun other => (Structure.has_putTokens_of_isSome hlist other).trans (h.has other)
    kept := fun other key' hkind himports =>
      (hother _ _ other key' hkind himports).trans (h.kept other key' hkind himports)
    kept' := fun other key' hkind himports =>
      (hother _ _ other key' hkind himports).trans (h.kept' other key' hkind himports)
    analysed := h.analysed }

variable {c : Token}

theorem Pairing.Proper.not_isIn (hP : P.Proper) {ts : List Token} (hts : ∀ u ∈ ts, P.idle u)
    (hc : ¬ P.idle c) : c.isIn ts = false :=
  List.any_eq_false.mpr fun u hu hsame => hc (hP.same u c (hts u hu) hsame)

section

variable (hP : P.Proper) (hc : P.idle c) (isCall : Token → Bool)
  (hhas : ∀ scope, s.flows.has scope = P.first.has scope)

include hP hc isCall hhas

theorem Pairing.Proper.enterCall_idle :
    enterCall .plain isCall c s = (.ok none, { s with analysed := s.analysed ++ [c] }) := by
  obtain ⟨i, m, target, args, rfl, hno⟩ := hP.idle c hc
  simp [enterCall, Act.update_bind, Act.state_bind, Lexicon.plain, hhas, hno]

theorem Pairing.Proper.meet_idle : ∃ ts, (∀ u ∈ ts, P.idle u) ∧
      meet .plain isCall c s = (.ok none, { s with analysed := s.analysed ++ ts }) := by
  rw [meet, Act.state_bind]
  split
  · exact ⟨[], by simp, by simp [Act.pure_apply]⟩
  · exact ⟨[c], by simpa using hc, hP.enterCall_idle hc isCall hhas⟩

/-! ### Steps of two searches

Calls and imports change neither the visited tokens nor the recorded paths, so they keep whatever is
known of these. -/

end

section Steps

variable {R : Search → Search → Prop} (hR : ∀ s s' f f' a a', R s s' →
  R { s with flows := f, analysed := a } { s' with flows := f', analysed := a' })

/-- Run side by side the two acts end alike. -/
abbrev Keep (P : Pairing) (R : Search → Search → Prop) {α : Type} (E : List String)
    (Q : List String → α → α → Prop) (x y : Searching α) : Prop :=
  Couples (fun E s s' => Along P E s s' ∧ R s s') (fun _ => False) (fun e _ e' _ => e = e') E Q x y

include hR

theorem importsOf_keep (v : View) (hplace : ¬ P.apart Special.imports.name) :
    Keep P R E (fun E' i i' => i = i' ∧ Shared P E' i ∧ v.name ∈ E') (importsOf .plain v)
      (importsOf .plain v) := by
  intro s s' hs
  cases hts : s.flows.tokens? v.name (Lexicon.plain.place .imports) with
  | some ts =>
    obtain ⟨ts', hts'⟩ := Option.isSome_iff_exists.mp
      ((hs.1.flows.isSome v.name (Lexicon.plain.place .imports)).trans (hts ▸ rfl))
    rw [importsOf_of_some hts, importsOf_of_some hts']
    have halong := hs.1.put (hs.1.flows.sort_both hts hts') (Option.isSome_of_eq_some hts) (.inr rfl)
    exact .ok (List.subset_cons_self v.name E) ⟨halong, hR _ _ _ _ _ _ hs.2⟩
      ⟨rfl, ⟨hplace, fun _ => List.mem_cons_self⟩, List.mem_cons_self⟩
  | none =>
    have hts' : s'.flows.tokens? v.name (Lexicon.plain.place .imports) = none := by
      have hsome := hs.1.flows.isSome v.name (Lexicon.plain.place .imports)
      rw [hts] at hsome
      exact Option.not_isSome_iff_eq_none.mp (by simp [hsome])
    rw [importsOf_of_none hts, importsOf_of_none hts']
    exact .ok (List.subset_cons_self v.name E) ⟨{ hs.1 with flows := hs.1.flows.settle hts }, hs.2⟩
      ⟨rfl, trivial, List.mem_cons_self⟩

theorem addTo_keep (hP : P.Proper) {v : View} (hv : OwnKinds P v) (hkey : P.kinds key) (x : Token) :
    Keep P R E (fun _ => Both (OwnKinds P)) (addTo v key x) (addTo v key x) := by
  refine .look fun s s' hs => ?_
  rw [hs.1.hasList]
  by_cases hlist : s.hasList v.name key = true
  · rw [if_pos hlist]
    have hflows := hs.1.flows.append (hP.kinds key hkey) hlist [x]
    exact .ok (List.Subset.refl E) ⟨hs.1.put hflows hlist (.inl hkey), hR _ _ _ _ _ _ hs.2⟩ ⟨rfl, hv⟩
  · rw [if_neg hlist]
    refine .ok (List.Subset.refl E) hs ⟨rfl, fun key' ts hts => ?_⟩
    by_cases h : key' = key
    · exact h ▸ hkey
    · exact hv key' ts (Table.get?_put_of_ne _ _ h ▸ hts)

section

variable (hP : P.Proper) (isCall : Token → Bool)

include hP isCall

theorem bindFrom_keep (args : List Token) (i : Nat) {v : View}
    (hv : OwnKinds P v) : Keep P R E (fun _ => Both (OwnKinds P)) (bindFrom .plain isCall v i args)
      (bindFrom .plain isCall v i args) := by
  induction args generalizing E i v with
  | nil => exact .pure ⟨rfl, hv⟩
  | cons arg args ih =>
    refine .look fun s s' hs => ?_
    have hshared : Shared P E (.stored v.name (Lexicon.plain.place .params)) :=
      ⟨hP.places .params (by simp), fun h => absurd h (by decide)⟩
    rw [hs.1.read hshared]
    cases hparam : (s.read (.stored v.name (Lexicon.plain.place .params)))[i]? with
    | none => exact Couples.pure ⟨rfl, hv⟩ s s' hs
    | some param =>
      dsimp only
      cases bound isCall param arg with
      | error e => exact .error rfl
      | ok x =>
        have hkind := hs.1.param hP (List.mem_of_getElem? hparam)
        refine Couples.bind (addTo_keep hR hP hv hkind x) (fun E' v v' _ hv => ?_) s s' hs
        obtain ⟨rfl, hv⟩ := hv
        exact ih (i + 1) hv

theorem enterCall_keep (c : Token) :
    Keep P R E (fun _ => Option.Rel (Both (OwnKinds P))) (enterCall .plain isCall c)
      (enterCall .plain isCall c) := by
  refine .bind (.update fun s s' hs => ?_) fun E₁ _ _ _ _ => ?_
  · exact ⟨hs.1.note [c] [c] fun _ _ => rfl, hR _ _ _ _ _ _ hs.2⟩
  · cases c with
    | site i m => exact .fail fun _ _ _ => rfl
    | jump i m target args =>
      refine .peek fun s s' hs => ?_
      rw [hs.1.flows.has]
      split
      · have hcallee : Keep P R E₁ (fun _ => Both (OwnKinds P)) (callee .plain isCall target args)
            (callee .plain isCall target args) := by
          refine .peek fun s s' hs => ?_
          rw [hs.1.hasList]
          split
          · refine .bind (bindFrom_keep hR hP isCall args 0 fun key ts h => by cases h) fun _ v v' _ hv => ?_
            obtain ⟨rfl, hv⟩ := hv
            refine .pure ⟨rfl, fun key ts hts => ?_⟩
            obtain ⟨us, hus, -⟩ := exists_of_get?_sortOwn hts
            exact hv key us hus
          · exact .fail fun _ _ _ => rfl
        exact .bind hcallee fun _ _ _ _ hv => .pure (.some hv)
      · exact .pure .none

/-- An idle call leads nowhere, whether it has been looked into or not. -/
theorem meet_keep (c : Token) :
    Keep P R E (fun _ => Option.Rel (Both (OwnKinds P))) (meet .plain isCall c)
      (meet .plain isCall c) := by
  by_cases hidle : P.idle c
  · intro s s' hs
    obtain ⟨ts, hts, hmeet⟩ := hP.meet_idle hidle isCall hs.1.has
    obtain ⟨ts', hts', hmeet'⟩ := hP.meet_idle hidle isCall fun scope =>
      (hs.1.flows.has scope).trans (hs.1.has scope)
    rw [hmeet, hmeet']
    refine .ok (List.Subset.refl E) ⟨hs.1.note ts ts' fun c hc => ?_, hR _ _ _ _ _ _ hs.2⟩ .none
    rw [hP.not_isIn hts hc, hP.not_isIn hts' hc]
  · refine .look fun s s' hs => ?_
    rw [hs.1.analysed c hidle]
    split
    · exact Couples.pure .none s s' hs
    · exact enterCall_keep hR hP isCall c s s' hs

end

omit hR

theorem findImport_keep (wanted : Token → Bool) (key : String) {imports : Source}
    (hi : Shared P E imports) : Keep P R E (fun _ => Eq) (findImport .plain wanted key imports)
      (findImport .plain wanted key imports) := by
  intro s s' hs
  have hgo : ∀ ts, findImport.go .plain wanted key s' ts =
      ((findImport.go .plain wanted key s ts).1, s') := by
    intro ts
    induction ts with
    | nil => rfl
    | cons u ts ih =>
      unfold findImport.go
      split
      · cases u with
        | site i m => rfl
        | jump i m g as =>
          dsimp only
          rw [hs.1.hasList]
          split
          · rfl
          · exact ih
      · exact ih
  have hstate := @findImport_go_state .plain wanted key s (s.read imports)
  rw [findImport, findImport, hs.1.read hi, hgo]
  revert hstate
  rcases findImport.go .plain wanted key s (s.read imports) with ⟨e | o, s₁⟩ <;> intro hstate
  · exact .error rfl
  · obtain rfl : s₁ = s := hstate
    exact .ok (List.Subset.refl E) hs rfl

end Steps

/-! ### Searches that take the same steps -/

theorem conclude_keep (p : Path) :
    Keep P (fun s s' => s'.visited = s.visited ∧ s'.paths = s.paths) E (fun _ _ _ => True)
      (conclude p) (conclude p) := by
  refine .look fun s s' hs => ?_
  rw [hs.2.2]
  cases p.conclude? s.paths with
  | none => exact .error rfl
  | some ps =>
    exact .ok (List.Subset.refl E) ⟨{ hs.1 with }, hs.2.1, rfl⟩ trivial

section Coupling

variable {I : Search → Prop} {A : SearchError → Prop} {path : Path → Prop}
  {next : Token → Token → Prop} {view : View → Prop} {imports : Source → Prop} {found : String → Prop}

/-- Two searches that also have met the same tokens and recorded the same paths. -/
abbrev State (P : Pairing) (I : Search → Prop) (E : List String) (s s' : Search) : Prop :=
  I s ∧ Along P E s s' ∧ s'.visited = s.visited ∧ s'.paths = s.paths

def abreastRelations (P : Pairing) (I : Search → Prop) (path : Path → Prop)
    (next : Token → Token → Prop) (view : View → Prop) (imports : Source → Prop)
    (found : String → Prop) : Relations where
  state := State P I
  reach p p' c c' := p = p' ∧ Both (fun c => path (p ++ [c])) c c'
  next c _ := Both (next c)
  view := Both view
  settled E v v' := Both view v v' ∧ v.name ∈ E
  imports E i i' := Both imports i i' ∧ Shared P E i
  found := Both found

theorem lists_shared {Q : Token → Prop} (hsrc : Offers I Q src) (hshared : Shared P E src) :
    Lists (State P I) E (Both Q) src src := by
  intro E' s s' hE hs
  rw [hs.2.1.read (hshared.mono hE)]
  exact List.forall₂_same.mpr fun t ht => ⟨rfl, hsrc s hs.1 t ht⟩

/-- Two searches with the same invariant, whose paths do not lead to the lists that differ. -/
theorem Invariant.abreast (h : Invariant I A path next view imports found) (hP : P.Proper)
    (hpath : ∀ p c, path (p ++ [c]) → ¬ P.apart c.kind) (limit : Limit) :
    Coupling (fun _ => False) (fun e _ e' _ => e = e')
      (abreastRelations P I path next view imports found) .plain .plain limit limit where
  settled_mono hE hv := ⟨hv.1, hE hv.2⟩
  imports_mono hE hi := ⟨hi.1, hi.2.mono hE⟩
  width := .inl ⟨rfl, fun _ _ _ _ => rfl⟩
  depth := .inl ⟨rfl, fun _ _ _ _ => rfl⟩
  kind := by
    rintro p _ c _ ⟨rfl, rfl, -⟩ w -
    rfl
  visit := by
    rintro p _ t _ E s s' ⟨rfl, rfl, -⟩ ⟨hI, halong, hvisited, hpaths⟩
    exact ⟨h.visited hI, { halong with }, congrArg (· ++ [t]) hvisited, hpaths⟩
  leave := by
    rintro p _ t _ E s s' ⟨rfl, rfl, -⟩ ⟨hI, halong, hvisited, hpaths⟩
    exact ⟨h.visited hI, { halong with }, congrArg (unvisit t) hvisited, hpaths⟩
  conclude := by
    rintro p _ c _ E ⟨rfl, rfl, hc⟩
    exact ((conclude_keep _).keeping (h.conclude hc)).imp fun _ _ _ _ _ => trivial
  importsOf := by
    rintro v _ E ⟨rfl, hv⟩
    refine ((importsOf_keep (fun _ _ _ _ _ _ h => h) v (hP.places .imports (by simp))).keeping
      (h.importsOf hv)).imp ?_
    rintro E' i _ - ⟨⟨rfl, hshared, hname⟩, hi⟩
    exact ⟨⟨⟨rfl, hi⟩, hshared⟩, ⟨rfl, hv⟩, hname⟩
  enter := by
    rintro p _ c _ E ⟨rfl, rfl, hc⟩ hkind
    refine ((meet_keep (fun _ _ _ _ _ _ h => h) hP _ c).keeping
      (Invariant.ensures_meet (fun v hv => by cases hv) (h.enter hc hkind))).imp ?_
    rintro E' o o' - ⟨ho, hviews⟩
    cases ho with
    | none => exact .none
    | some hv =>
      obtain ⟨rfl, -⟩ := hv
      obtain ⟨hview, hresult⟩ := hviews _ rfl
      refine .some ⟨⟨rfl, hview⟩, fun E s s' hsettled hs => ?_⟩
      rw [hs.2.1.source?]
      refine rel_of_forall fun src hsrc E' s₁ s₁' hE hs₁ => ?_
      have hshared := shared_source? hsrc (hP.places .result (by simp)) fun _ => hsettled.2
      exact (lists_shared (hresult s src hs.1 hsrc) hshared E' s₁ s₁' hE hs₁).imp
        fun _ _ ht => ⟨rfl, ht⟩
  lists := by
    rintro p _ c _ E v _ s s' ⟨rfl, rfl, hc⟩ hkind ⟨⟨rfl, hv⟩, hname⟩ hs
    rw [hs.2.1.source?]
    refine ⟨rel_of_forall fun src hsrc => ?_, Iff.rfl⟩
    exact lists_shared (h.lists hc hkind hv hs.1 hsrc) (shared_source? hsrc (hpath p c hc) fun _ => hname)
  home := by
    rintro p _ c _ ⟨rfl, rfl, hc⟩ hkind
    obtain ⟨-, hview, hlist⟩ := h.home hc hkind
    refine ⟨fun E s s' hs => ?_, ⟨rfl, hview⟩, fun E hE => lists_shared hlist ⟨hpath p c hc, fun _ => hE.2⟩⟩
    exact ⟨(hs.2.1.flows.has _).symm, fun _ => rfl, (hs.2.1.hasList _ _).symm⟩
  follow := by
    rintro p _ c _ t _ E s s' ⟨rfl, rfl, hc⟩ hkind ⟨rfl, ht⟩ hs
    refine ⟨?_, fun hcan => ⟨rfl, rfl, h.follow hc hkind ht hcan⟩⟩
    rw [canFollow, canFollow, hs.2.2.1]
  between := by
    rintro p _ c _ t _ E i _ ⟨rfl, rfl, hc⟩ hkind ⟨rfl, ht⟩ ⟨⟨rfl, hi⟩, hshared⟩
    exact ((findImport_keep _ _ hshared).keeping (h.find hc hkind hi _)).imp fun _ _ _ _ ho => rel_both ho
  before := by
    rintro p _ c _ E i _ ⟨rfl, rfl, hc⟩ hkind ⟨⟨rfl, hi⟩, hshared⟩
    exact ((findImport_keep _ _ hshared).keeping (h.find hc hkind hi _)).imp fun _ _ _ _ ho => rel_both ho
  found := by
    rintro p _ c _ scope _ ⟨rfl, rfl, hc⟩ hkind ⟨rfl, hscope⟩
    obtain ⟨hview, hnext, hall⟩ := h.found hc hkind hscope
    have hshared : ∀ {E : List String}, scope ∈ E → Shared P E (.stored scope c.kind) :=
      fun hE => ⟨hpath p c hc, fun _ => hE⟩
    refine ⟨⟨rfl, hview⟩, fun E hE => ⟨lists_shared hnext (hshared hE.2), ?_⟩⟩
    exact fun E' s s' hE' hs => (lists_shared hall (hshared hE.2) E' s s' hE' hs).imp
      fun _ _ ht => ⟨rfl, ht⟩

end Coupling

end Search

end MaskedTaint
