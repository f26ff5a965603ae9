import Mathlib.Data.List.Induction
import MaskedTaint.Search.Path

/-! Which of the recorded paths of a sink are candidates: the nearest one, and those around the
branches that it takes. -/

namespace MaskedTaint

namespace Catalog

/-! ### The nearest path -/

def Falls (sink : Token) (p : Path) : Prop :=
  ∃ u rest, p = sink :: u :: rest ∧ u.scope = sink.scope ∧ ∀ x ∈ rest, x.pos < u.pos

def IsNearest (ps : List Path) (q : Path) : Prop :=
  ∃ front back, ps = front ++ q :: back ∧
    (∀ p ∈ front, ∀ u ∈ p[1]?, ∀ w ∈ q[1]?, u.pos < w.pos) ∧
    ∀ p ∈ back, ∀ u ∈ p[1]?, ∀ w ∈ q[1]?, u.pos ≤ w.pos

variable {q p : Path} {t : Token}

theorem IsNearest.mem {ps : List Path} (h : IsNearest ps q) : q ∈ ps := by
  obtain ⟨front, back, rfl, -⟩ := h
  simp

theorem IsNearest.pos_le {ps : List Path} (h : IsNearest ps q) (hp : p ∈ ps)
    {u w : Token} (hu : u ∈ p[1]?) (hw : w ∈ q[1]?) : u.pos ≤ w.pos := by
  obtain ⟨front, back, rfl, hfront, hback⟩ := h
  rcases List.mem_append.mp hp with hp | hp
  · exact Int.le_of_lt (hfront p hp u hu w hw)
  · rcases List.mem_cons.mp hp with rfl | hp
    · cases Option.mem_unique hu hw
      exact Int.le_refl _
    · exact hback p hp u hu w hw

variable {sink : Token} {ps : List Path}

theorem nearer_one_none (hp : Falls sink p) :
    ∃ u, p[1]? = some u ∧ nearer 1 none p = some (u, p) := by
  obtain ⟨u, rest, rfl, hscope, -⟩ := hp
  exact ⟨u, rfl, by simp [nearer]⟩

theorem nearer_one_some (hp : Falls sink p) (b : Token) (q : Path) :
    ∃ u, p[1]? = some u ∧ nearer 1 (some (b, q)) p = some (if b.pos < u.pos then (u, p) else (b, q)) := by
  obtain ⟨u, rest, rfl, hscope, -⟩ := hp
  refine ⟨u, rfl, ?_⟩
  have hlt : sink.pos - u.pos < sink.pos - b.pos ↔ b.pos < u.pos := by omega
  simp only [nearer, List.getElem?_cons_succ, List.getElem?_cons_zero, List.head?_cons,
    Option.getD_some, hscope, bne_self_eq_false, Bool.false_eq_true, if_false, hlt]
  split <;> rfl

theorem foldl_nearer_one (hps : ∀ p ∈ ps, Falls sink p) (hne : ps ≠ []) :
    ∃ u q, ps.foldl (nearer 1) none = some (u, q) ∧ q[1]? = some u ∧ IsNearest ps q := by
  induction ps using List.reverseRecOn with
  | nil => exact absurd rfl hne
  | append_singleton ps p ih =>
    have hp := hps p (by simp)
    rw [List.foldl_append, List.foldl_cons, List.foldl_nil]
    by_cases hempty : ps = []
    · obtain ⟨u, hu, hnearer⟩ := nearer_one_none hp
      subst hempty
      exact ⟨u, p, hnearer, hu, [], [], rfl, by simp, by simp⟩
    · obtain ⟨b, q, hbest, hb, hq⟩ := ih (fun r hr => hps r (by simp [hr])) hempty
      obtain ⟨u, hu, hnearer⟩ := nearer_one_some hp b q
      rw [hbest, hnearer]
      by_cases hlt : b.pos < u.pos
      · refine ⟨u, p, by rw [if_pos hlt], hu, ps, [], rfl, ?_, by simp⟩
        intro r hr x hx w hw
        cases Option.mem_unique hw hu
        have hle := hq.pos_le hr hx hb
        omega
      · refine ⟨b, q, by rw [if_neg hlt], hb, ?_⟩
        obtain ⟨front, back, rfl, hfront, hback⟩ := hq
        refine ⟨front, back ++ [p], by simp, hfront, ?_⟩
        intro r hr x hx w hw
        rcases List.mem_append.mp hr with hr | hr
        · exact hback r hr x hx w hw
        · cases List.mem_singleton.mp hr
          cases Option.mem_unique hx hu
          cases Option.mem_unique hw hb
          omega

theorem foldl_nearer_later {u : Token} (hps : ∀ p ∈ ps, Falls sink p)
    (hle : ∀ p ∈ ps, ∀ x ∈ p[1]?, x.pos ≤ u.pos) {i : Nat} (hi : 2 ≤ i) :
    ps.foldl (nearer i) (some (u, q)) = some (u, q) := by
  induction ps with
  | nil => rfl
  | cons p ps ih =>
    have hp : nearer i (some (u, q)) p = some (u, q) := by
      obtain ⟨x, rest, rfl, -, hrest⟩ := hps p List.mem_cons_self
      have hx : x.pos ≤ u.pos := hle _ List.mem_cons_self x rfl
      obtain ⟨j, rfl⟩ : ∃ j, i = j + 2 := ⟨i - 2, by omega⟩
      cases hj : rest[j]? with
      | none => simp [nearer, hj]
      | some y =>
        have hy := hrest y (List.mem_of_getElem? hj)
        have hnot : ¬ sink.pos - y.pos < sink.pos - u.pos := by omega
        simp [nearer, hj, hnot]
    rw [List.foldl_cons, hp]
    exact ih (fun r hr => hps r (List.mem_cons_of_mem _ hr))
      fun r hr => hle r (List.mem_cons_of_mem _ hr)

theorem le_foldl_max (ns : List Nat) (n : Nat) : n ≤ ns.foldl max n := by
  induction ns generalizing n with
  | nil => exact Nat.le_refl n
  | cons m ns ih => exact Nat.le_trans (Nat.le_max_left n m) (ih (max n m))

theorem nearest_of_falls (hps : ∀ p ∈ ps, Falls sink p) (hne : ps ≠ []) :
    ∃ q, nearest ps = some q ∧ IsNearest ps q := by
  obtain ⟨u, q, hone, hu, hq⟩ := foldl_nearer_one hps hne
  have hlong : 2 ≤ (ps.map List.length).foldl max 0 := by
    cases ps with
    | nil => exact absurd rfl hne
    | cons p ps =>
      obtain ⟨x, rest, rfl, -⟩ := hps p List.mem_cons_self
      have := le_foldl_max (ps.map List.length) (max 0 (sink :: x :: rest).length)
      simp only [List.length_cons] at this
      simp only [List.map_cons, List.foldl_cons, List.length_cons]
      omega
  have hrange : List.range' 1 ((ps.map List.length).foldl max 0 - 1) =
      1 :: List.range' 2 ((ps.map List.length).foldl max 0 - 2) := by
    rw [show (ps.map List.length).foldl max 0 - 1 = (ps.map List.length).foldl max 0 - 2 + 1 by omega,
      List.range'_succ]
  have hlater : ∀ is : List Nat, (∀ i ∈ is, 2 ≤ i) →
      is.foldl (fun best i => ps.foldl (nearer i) best) (some (u, q)) = some (u, q) := by
    intro is his
    induction is with
    | nil => rfl
    | cons i is ih =>
      rw [List.foldl_cons, foldl_nearer_later hps (fun p hp x hx => hq.pos_le hp hx hu)
        (his i List.mem_cons_self)]
      exact ih fun j hj => his j (List.mem_cons_of_mem _ hj)
  refine ⟨q, ?_, hq⟩
  simp only [nearest, hrange, List.foldl_cons, hone]
  rw [hlater _ fun i hi => (List.mem_range'_1.mp hi).1]
  rfl

theorem IsNearest.unique (hps : ∀ p ∈ ps, Falls sink p) {r : Path} (hq : IsNearest ps q)
    (hr : IsNearest ps r) : q = r := by
  have hsecond : ∀ p ∈ ps, ∃ u, p[1]? = some u := fun p hp => by
    obtain ⟨u, rest, rfl, -⟩ := hps p hp
    exact ⟨u, rfl⟩
  obtain ⟨x, hx⟩ := hsecond q hq.mem
  obtain ⟨y, hy⟩ := hsecond r hr.mem
  have hxy := hr.pos_le hq.mem hx hy
  have hyx := hq.pos_le hr.mem hy hx
  obtain ⟨front, back, rfl, hfront, -⟩ := hq
  obtain ⟨front', back', heq, hfront', -⟩ := hr
  rcases List.append_eq_append_iff.mp heq with ⟨mid, hmid, hrest⟩ | ⟨mid, hmid, hrest⟩
  · cases mid with
    | nil => exact (List.cons.inj hrest).1
    | cons p mid =>
      obtain ⟨rfl, -⟩ := List.cons.inj hrest
      have hlt := hfront' q (by simp [hmid]) x hx y hy
      omega
  · cases mid with
    | nil => exact (List.cons.inj hrest).1.symm
    | cons p mid =>
      obtain ⟨rfl, -⟩ := List.cons.inj hrest
      have hlt := hfront r (by simp [hmid]) y hy x hx
      omega

/-! ### Paths around branches -/

section Apart

/- The paths at hand can be told apart. -/
variable {P : Path → Prop} (apart : ∀ p q, P p → P q → p.same q = true → p = q)

include apart

theorem mem_extend {wanted : Path → Bool} {cs : List Path} (hps : ∀ p ∈ ps, P p)
    (hcs : ∀ p ∈ cs, P p) (q : Path) :
    q ∈ extend wanted ps cs ↔ q ∈ cs ∨ q ∈ ps ∧ wanted q = true := by
  induction ps generalizing cs with
  | nil => simp [extend]
  | cons p ps ih =>
    have hp := hps p List.mem_cons_self
    have hrest : ∀ r ∈ ps, P r := fun r hr => hps r (List.mem_cons_of_mem _ hr)
    have hstep : ∀ r, r ∈ (if !p.isIn cs && wanted p then cs ++ [p] else cs) ↔
        r ∈ cs ∨ r = p ∧ wanted r = true := by
      intro r
      cases hw : wanted p with
      | false =>
        simp only [Bool.and_false, Bool.false_eq_true, if_false, iff_self_or]
        rintro ⟨rfl, h⟩
        simp [hw] at h
      | true =>
        cases hin : p.isIn cs with
        | false =>
          simp only [Bool.not_false, Bool.and_self, if_true, List.mem_append, List.mem_singleton]
          exact or_congr_right ⟨fun h => ⟨h, h ▸ hw⟩, And.left⟩
        | true =>
          obtain ⟨c, hc, hsame⟩ := List.any_eq_true.mp hin
          have hmem : p ∈ cs := apart p c hp (hcs c hc) hsame ▸ hc
          simp only [Bool.not_true, Bool.false_and, Bool.false_eq_true, if_false, iff_self_or]
          rintro ⟨rfl, -⟩
          exact hmem
    have hall : ∀ r ∈ (if !p.isIn cs && wanted p then cs ++ [p] else cs), P r := by
      intro r hr
      rcases (hstep r).mp hr with hr | ⟨rfl, -⟩
      · exact hcs r hr
      · exact hp
    have := ih hrest hall
    simp only [extend, List.foldl_cons] at this ⊢
    rw [this, hstep, List.mem_cons]
    constructor
    · rintro ((h | ⟨h, hw⟩) | ⟨h, hw⟩)
      · exact .inl h
      · exact .inr ⟨.inl h, hw⟩
      · exact .inr ⟨.inr h, hw⟩
    · rintro (h | ⟨h | h, hw⟩)
      · exact .inl (.inl h)
      · exact .inl (.inr ⟨h, hw⟩)
      · exact .inr ⟨h, hw⟩

theorem mem_withBranches {c : Catalog} (hps : ∀ p ∈ ps, P p)
    (hpaths : ∀ p ∈ ps, ∀ q ∈ c.pathsOf p, P q) (q : Path) : q ∈ c.withBranches ps ↔
      q ∈ ps ∨ ∃ p ∈ ps, ∃ t ∈ deeper p, q ∈ c.pathsOf p ∧ bypasses t q = true := by
  have hinner : ∀ p, (∀ r ∈ c.pathsOf p, P r) → ∀ (ts : List Token) (cs : List Path),
      (∀ r ∈ cs, P r) → ∀ r, r ∈ ts.foldl (fun cs t => extend (bypasses t) (c.pathsOf p) cs) cs ↔
        r ∈ cs ∨ ∃ t ∈ ts, r ∈ c.pathsOf p ∧ bypasses t r = true := by
    intro p hp ts
    induction ts with
    | nil => simp
    | cons t ts ih =>
      intro cs hcs r
      have hmem : ∀ r, r ∈ extend (bypasses t) (c.pathsOf p) cs ↔
          r ∈ cs ∨ r ∈ c.pathsOf p ∧ bypasses t r = true := mem_extend apart hp hcs
      rw [List.foldl_cons, ih _ fun r hr => ((hmem r).mp hr).elim (hcs r) fun h => hp r h.1, hmem]
      simp only [List.mem_cons, exists_eq_or_imp, or_assoc]
  have houter : ∀ (qs cs : List Path), (∀ p ∈ qs, ∀ q ∈ c.pathsOf p, P q) → (∀ r ∈ cs, P r) →
      ∀ r, r ∈ qs.foldl (fun cs p => (deeper p).foldl
          (fun cs t => extend (bypasses t) (c.pathsOf p) cs) cs) cs ↔
        r ∈ cs ∨ ∃ p ∈ qs, ∃ t ∈ deeper p, r ∈ c.pathsOf p ∧ bypasses t r = true := by
    intro qs
    induction qs with
    | nil => simp
    | cons p qs ih =>
      intro cs hqs hcs r
      have hp := hqs p List.mem_cons_self
      have hmem := hinner p hp (deeper p) cs hcs
      rw [List.foldl_cons, ih _ (fun p hp => hqs p (List.mem_cons_of_mem _ hp))
        fun r hr => ((hmem r).mp hr).elim (hcs r) fun ⟨t, _, h, _⟩ => hp r h, hmem]
      simp only [List.mem_cons, exists_eq_or_imp, or_assoc]
  exact houter ps ps hpaths hps q

end Apart

/-! ### Joined texts -/

theorem withSplits_of_even {c : Catalog} {cs : List Path}
    (h : ∀ p ∈ cs, ∀ t ∈ p, some t.split = p.head?.map Token.split) : c.withSplits cs = cs := by
  have hjoin : ∀ p ∈ cs, c.joinPath p cs = cs := by
    intro p hp
    have hplaces : splitPlaces p = [] := by
      refine List.filter_eq_nil_iff.mpr fun i hi => ?_
      have hlt := List.mem_range.mp hi
      simp [List.getElem?_eq_getElem hlt, h p hp _ (List.getElem_mem hlt)]
    rw [joinPath, hplaces]
    rfl
  have hfrom : ∀ fuel i, c.joinFrom fuel i cs = cs := by
    intro fuel
    induction fuel with
    | zero => exact fun i => rfl
    | succ fuel ih =>
      intro i
      rw [joinFrom]
      split
      · rfl
      · rename_i p hp
        rw [hjoin p (List.mem_of_getElem? hp), ih]
  exact hfrom _ _

/-! ### The catalog of some sinks -/

def ofSinks (paths : Token → List Path) (sinks : List Token) : Catalog :=
  (sinks.filter fun t => !(paths t).isEmpty).map fun t => (t, paths t)

theorem add_of_new {c : Catalog} (hnew : ∀ e ∈ c, e.1.same t = false) {qs : List Path}
    (hqs : qs ≠ []) : c.add t qs = c ++ [(t, qs)] := by
  cases qs with
  | nil => exact absurd rfl hqs
  | cons q qs =>
    induction c with
    | nil => rfl
    | cons e c ih =>
      have he := hnew e List.mem_cons_self
      simp [add, he, ih fun e he => hnew e (List.mem_cons_of_mem _ he)]

theorem ofSinks_concat (paths : Token → List Path) {sinks : List Token}
    (hnew : ∀ u ∈ sinks, u.same t = false) :
    ofSinks paths (sinks ++ [t]) = (ofSinks paths sinks).add t (paths t) := by
  have hsinks : ∀ e ∈ ofSinks paths sinks, e.1.same t = false := by
    intro e he
    obtain ⟨u, hu, rfl⟩ := List.mem_map.mp he
    exact hnew u (List.mem_filter.mp hu).1
  cases hpaths : paths t with
  | nil => simp [ofSinks, hpaths, add]
  | cons q qs =>
    rw [add_of_new hsinks (by simp)]
    simp [ofSinks, hpaths]

theorem find_ofSinks (paths : Token → List Path) {sinks : List Token}
    (hsinks : sinks.Pairwise fun t u => t.same u = false) (ht : t ∈ sinks) :
    (ofSinks paths sinks).find t = paths t := by
  induction sinks with
  | nil => cases ht
  | cons u sinks ih =>
    obtain ⟨hu, hrest⟩ := List.pairwise_cons.mp hsinks
    rcases List.mem_cons.mp ht with rfl | ht
    · by_cases hpaths : paths t = []
      · have hnone : (ofSinks paths sinks).find? (fun e => e.1.same t) = none := by
          refine List.find?_eq_none.mpr fun e he => ?_
          obtain ⟨w, hw, rfl⟩ := List.mem_map.mp he
          intro hsame
          have hne := hu w (List.mem_filter.mp hw).1
          rw [Token.same_symm hsame] at hne
          cases hne
        have hsame : ofSinks paths (t :: sinks) = ofSinks paths sinks := by simp [ofSinks, hpaths]
        rw [hsame, find, hnone, hpaths]
        rfl
      · simp [ofSinks, find, hpaths, Token.same_refl]
    · have hne : u.same t = false := hu t ht
      rw [← ih hrest ht]
      by_cases hpaths : paths u = [] <;> simp [ofSinks, find, hpaths, hne]

theorem relevant_ofSinks (paths : Token → List Path) (sinks : List Token) :
    (ofSinks paths sinks).relevant = sinks.flatMap fun t => relevantOf (paths t) := by
  induction sinks with
  | nil => rfl
  | cons t sinks ih =>
    by_cases hpaths : paths t = []
    · have hnone : relevantOf (paths t) = [] := by
        rw [hpaths]
        rfl
      simp only [List.flatMap_cons, hnone, List.nil_append, ← ih]
      simp [ofSinks, hpaths]
    · rw [List.flatMap_cons, ← ih]
      simp [ofSinks, hpaths, relevant]

end Catalog

end MaskedTaint
