import Mathlib.Data.List.Perm.Basic
import MaskedTaint.Search.Path

/-! What recording a path does to the paths that are there. Where two paths part on one branch of
the program, one supersedes the other. Superseded paths are collected first and dropped one by one
afterwards; in which order does not matter. The new path is collected once for every path that
supersedes it, so it may be dropped more often than it was recorded. -/

namespace MaskedTaint

namespace Path

/-! ### Paths alike -/

theorem same_refl (p : Path) : p.same p = true := by
  induction p with
  | nil => rfl
  | cons a p ih => simp [same, Token.same_refl, ih]

variable {p q current : Path} {a b : Token} {ps : List Path}

theorem same_symm (h : p.same q = true) : q.same p = true := by
  induction p generalizing q with
  | nil =>
    cases q with
    | nil => rfl
    | cons b q => cases h
  | cons a p ih =>
    cases q with
    | nil => cases h
    | cons b q =>
      simp only [same, Bool.and_eq_true] at h ⊢
      exact ⟨Token.same_symm h.1, ih h.2⟩

theorem same_trans {r : Path} (h : p.same q = true) (h' : q.same r = true) : p.same r = true := by
  induction p generalizing q r with
  | nil =>
    cases q with
    | nil => exact h'
    | cons b q => cases h
  | cons a p ih =>
    cases q with
    | nil => cases h
    | cons b q =>
      cases r with
      | nil => cases h'
      | cons c r =>
        simp only [same, Bool.and_eq_true] at h h' ⊢
        exact ⟨Token.same_trans h.1 h'.1, ih h.2 h'.2⟩

theorem same_comm (p q : Path) : p.same q = q.same p := by
  rw [Bool.eq_iff_iff]
  exact ⟨same_symm, same_symm⟩

theorem same_congr_right (h : p.same q = true) (r : Path) : r.same p = r.same q := by
  rw [Bool.eq_iff_iff]
  exact ⟨fun hr => same_trans hr h, fun hr => same_trans hr (same_symm h)⟩

/-! ### Where paths part -/

@[simp] theorem firstDifference_cons (a b : Token) (p q : Path) :
    firstDifference (a :: p) (b :: q) = if a.same b then firstDifference p q else some (a, b) := by
  cases h : a.same b <;> simp [firstDifference, h]

theorem firstDifference_of_same (h : p.same q = true) : firstDifference p q = none := by
  induction p generalizing q with
  | nil => cases q <;> rfl
  | cons a p ih =>
    cases q with
    | nil => rfl
    | cons b q =>
      simp only [same, Bool.and_eq_true] at h
      rw [firstDifference_cons, if_pos h.1, ih h.2]

def PartAt (p q : Path) (i : Nat) (a b : Token) : Prop :=
  p[i]? = some a ∧ q[i]? = some b ∧ a.same b = false ∧
    ∀ j < i, ∀ x y, p[j]? = some x → q[j]? = some y → x.same y = true

theorem partAt_zero {x y : Token} :
    PartAt (x :: p) (y :: q) 0 a b ↔ x = a ∧ y = b ∧ a.same b = false := by
  simp [PartAt]

theorem partAt_succ {x y : Token} {i : Nat} :
    PartAt (x :: p) (y :: q) (i + 1) a b ↔ x.same y = true ∧ PartAt p q i a b := by
  constructor
  · rintro ⟨ha, hb, hab, hbefore⟩
    refine ⟨hbefore 0 (Nat.succ_pos i) x y rfl rfl, ha, hb, hab, fun j hj x y hx hy => ?_⟩
    exact hbefore (j + 1) (Nat.succ_lt_succ hj) x y hx hy
  · rintro ⟨hxy, ha, hb, hab, hbefore⟩
    refine ⟨ha, hb, hab, fun j hj u v hu hv => ?_⟩
    cases j with
    | zero =>
      cases hu
      cases hv
      exact hxy
    | succ j => exact hbefore j (Nat.lt_of_succ_lt_succ hj) u v hu hv

theorem firstDifference_eq_some_iff :
    firstDifference p q = some (a, b) ↔ ∃ i, PartAt p q i a b := by
  induction p generalizing q with
  | nil => simp [firstDifference, PartAt]
  | cons x p ih =>
    cases q with
    | nil => simp [firstDifference, PartAt]
    | cons y q =>
      rw [firstDifference_cons]
      by_cases hxy : x.same y = true
      · rw [if_pos hxy, ih]
        constructor
        · rintro ⟨i, hi⟩
          exact ⟨i + 1, partAt_succ.mpr ⟨hxy, hi⟩⟩
        · rintro ⟨i, hi⟩
          cases i with
          | zero =>
            obtain ⟨rfl, rfl, hab⟩ := partAt_zero.mp hi
            simp [hxy] at hab
          | succ i => exact ⟨i, (partAt_succ.mp hi).2⟩
      · rw [if_neg hxy, Option.some.injEq, Prod.mk.injEq]
        constructor
        · rintro ⟨rfl, rfl⟩
          exact ⟨0, partAt_zero.mpr ⟨rfl, rfl, by simpa using hxy⟩⟩
        · rintro ⟨i, hi⟩
          cases i with
          | zero => exact ⟨(partAt_zero.mp hi).1, (partAt_zero.mp hi).2.1⟩
          | succ i => exact absurd (partAt_succ.mp hi).1 hxy

/-! ### Superseding -/

def OneBranch (sink a b : Token) : Prop :=
  a.mark.depth = b.mark.depth ∧ a.mark.order = b.mark.order ∧ a.mark.flow = b.mark.flow ∧
    a.scope = b.scope ∧ sink.split = b.split

instance (sink a b : Token) : Decidable (OneBranch sink a b) := inferInstanceAs (Decidable (_ ∧ _))

/-- The current path supersedes the recorded one: where they part on one branch, it goes to a later
token. -/
def Superseded (sink : Token) (recorded current : Path) : Prop :=
  ∃ i a b, PartAt recorded current i a b ∧ OneBranch sink a b ∧ a.pos < b.pos

/-- The recorded path supersedes the current one: where they part on one branch, the current one
does not go to a later token. -/
def Supersedes (sink : Token) (recorded current : Path) : Prop :=
  ∃ i a b, PartAt recorded current i a b ∧ OneBranch sink a b ∧ ¬ a.pos < b.pos

def yields (p q : Path) : Bool :=
  match firstDifference p q with
  | none => false
  | some (a, b) => comparable p a b && decide (a.pos < b.pos)

def holdsOut (p q : Path) : Bool :=
  match firstDifference p q with
  | none => false
  | some (a, b) => comparable p a b && !decide (a.pos < b.pos)

section Sink

variable {sink : Token} {recorded current : Path}

theorem comparable_iff (hsink : recorded.head? = some sink) :
    comparable recorded a b = true ↔ OneBranch sink a b := by
  simp [comparable, OneBranch, hsink, and_assoc]

theorem exists_partAt_iff {P : Token → Token → Prop} :
    (∃ i a b, PartAt recorded current i a b ∧ P a b) ↔
      ∃ d ∈ firstDifference recorded current, P d.1 d.2 := by
  constructor
  · rintro ⟨i, a, b, hpart, h⟩
    exact ⟨(a, b), firstDifference_eq_some_iff.mpr ⟨i, hpart⟩, h⟩
  · rintro ⟨⟨a, b⟩, hd, h⟩
    obtain ⟨i, hpart⟩ := firstDifference_eq_some_iff.mp hd
    exact ⟨i, a, b, hpart, h⟩

instance : Decidable (Superseded sink recorded current) := decidable_of_iff _ exists_partAt_iff.symm

instance : Decidable (Supersedes sink recorded current) := decidable_of_iff _ exists_partAt_iff.symm

theorem yields_iff (hsink : recorded.head? = some sink) :
    yields recorded current = true ↔ Superseded sink recorded current := by
  rw [Superseded, exists_partAt_iff, yields]
  cases firstDifference recorded current with
  | none => simp
  | some d => simp [comparable_iff hsink]

theorem holdsOut_iff (hsink : recorded.head? = some sink) :
    holdsOut recorded current = true ↔ Supersedes sink recorded current := by
  rw [Supersedes, exists_partAt_iff, holdsOut]
  cases firstDifference recorded current with
  | none => simp
  | some d => simp [comparable_iff hsink]

end Sink

theorem overtaken?_eq (recorded current : Path) :
    overtaken? recorded current = if yields recorded current then some recorded
      else if holdsOut recorded current then some current else none := by
  unfold overtaken? yields holdsOut
  cases firstDifference recorded current with
  | none => rfl
  | some d =>
    by_cases hc : comparable recorded d.1 d.2 = true
    · by_cases hlt : d.1.pos < d.2.pos
      · simp [hc, hlt]
      · simp [hc, hlt]
    · simp [hc]

/-! ### Dropping paths -/

theorem remove?_of_not_same {front : List Path} (back : List Path)
    (h : ∀ r ∈ front, r.same p = false) : p.remove? (front ++ p :: back) = some (front ++ back) := by
  induction front with
  | nil => simp [remove?, same_refl]
  | cons r front ih =>
    have hr := h r List.mem_cons_self
    simp [remove?, hr, ih fun r hr => h r (List.mem_cons_of_mem _ hr)]

theorem remove?_congr (h : p.same q = true) (ps : List Path) : p.remove? ps = q.remove? ps := by
  induction ps with
  | nil => rfl
  | cons r ps ih => rw [remove?, remove?, same_congr_right h, ih]

theorem remove?_comm (p q : Path) (ps : List Path) :
    (p.remove? ps).bind q.remove? = (q.remove? ps).bind p.remove? := by
  by_cases hpq : p.same q = true
  · have hsame : p.remove? = q.remove? := funext (remove?_congr hpq)
    rw [hsame]
  induction ps with
  | nil => rfl
  | cons r ps ih =>
    -- the first path of the list is like at most one of the two
    by_cases hp : r.same p = true
    · have hq : ¬ r.same q = true := fun hq => hpq (same_trans (same_symm hp) hq)
      rw [remove?, remove?, if_pos hp, if_neg hq, Option.bind_some, Option.bind_map]
      cases q.remove? ps with
      | none => rfl
      | some qs => simp [remove?, hp]
    · by_cases hq : r.same q = true
      · rw [remove?, remove?, if_neg hp, if_pos hq, Option.bind_some, Option.bind_map]
        cases p.remove? ps with
        | none => rfl
        | some qs => simp [remove?, hq]
      · have hkeep : ∀ {p q : Path}, ¬ r.same q = true → ((p.remove? ps).map (r :: ·)).bind q.remove? =
            ((p.remove? ps).bind q.remove?).map (r :: ·) := by
          intro p q hq
          cases p.remove? ps with
          | none => rfl
          | some qs => simp [remove?, hq]
        rw [remove?, remove?, if_neg hp, if_neg hq, hkeep hq, hkeep hp, ih]

abbrev removeAll? (ds ps : List Path) : Option (List Path) := ds.foldlM (fun ps p => p.remove? ps) ps

theorem removeAll?_append (ds es ps : List Path) :
    removeAll? (ds ++ es) ps = (removeAll? ds ps).bind (removeAll? es) := List.foldlM_append

theorem removeAll?_perm {ds es : List Path} (h : ds.Perm es) (ps : List Path) :
    removeAll? ds ps = removeAll? es ps := by
  induction h generalizing ps with
  | nil => rfl
  | cons p _ ih => simp only [removeAll?, List.foldlM_cons, ih]
  | swap p q l =>
    have hcomm := congrArg (Option.bind · (removeAll? l)) (remove?_comm q p ps)
    simpa only [removeAll?, List.foldlM_cons, Option.bind_eq_bind, Option.bind_assoc] using hcomm
  | trans _ _ ih ih' => rw [ih, ih']

theorem remove?_eq_some_countP (h : 0 < ps.countP (·.same p)) :
    ∃ qs, p.remove? ps = some qs ∧ qs.countP (·.same p) + 1 = ps.countP (·.same p) := by
  induction ps with
  | nil => cases h
  | cons r ps ih =>
    rw [remove?]
    by_cases hr : r.same p = true
    · exact ⟨ps, if_pos hr, by simp [hr]⟩
    · have hcons : ∀ qs : List Path, (r :: qs).countP (·.same p) = qs.countP (·.same p) :=
        fun qs => by simp [hr]
      rw [hcons] at h ⊢
      obtain ⟨qs, hqs, hcount⟩ := ih h
      exact ⟨r :: qs, by rw [if_neg hr, hqs, Option.map_some], by rw [hcons, hcount]⟩

theorem remove?_eq_none (h : ps.countP (·.same p) = 0) : p.remove? ps = none := by
  induction ps with
  | nil => rfl
  | cons r ps ih =>
    rw [List.countP_eq_zero] at h
    have hrest := ih (List.countP_eq_zero.mpr fun q hq => h q (List.mem_cons_of_mem _ hq))
    rw [remove?, if_neg (h r List.mem_cons_self), hrest, Option.map_none]

theorem isSome_removeAll?_replicate {n : Nat} :
    (removeAll? (List.replicate n p) ps).isSome = true ↔ n ≤ ps.countP (·.same p) := by
  induction n generalizing ps with
  | zero => simp [removeAll?]
  | succ n ih =>
    rw [List.replicate_succ, removeAll?, List.foldlM_cons]
    by_cases hzero : ps.countP (·.same p) = 0
    · rw [remove?_eq_none hzero, hzero]
      simp
    · obtain ⟨qs, hqs, hcount⟩ := remove?_eq_some_countP (Nat.pos_of_ne_zero hzero)
      rw [hqs, ← hcount, Nat.add_le_add_iff_right]
      exact ih

/-! ### Recording a path -/

theorem filterMap_overtaken?_perm (current : Path) (recorded : List Path) :
    (recorded.filterMap fun r => overtaken? r current).Perm (recorded.filter (yields · current) ++
        List.replicate (recorded.countP (holdsOut · current)) current) := by
  induction recorded with
  | nil => exact .nil
  | cons r recorded ih =>
    have hone : ¬ (yields r current = true ∧ holdsOut r current = true) := by
      unfold yields holdsOut
      cases firstDifference r current with
      | none => simp
      | some d => simp; omega
    have hover := overtaken?_eq r current
    by_cases hy : yields r current = true
    · have hh : ¬ holdsOut r current = true := fun hh => hone ⟨hy, hh⟩
      rw [if_pos hy] at hover
      simpa [hover, hy, hh, List.countP_cons] using ih.cons r
    · rw [if_neg hy] at hover
      by_cases hh : holdsOut r current = true
      · rw [if_pos hh] at hover
        have hmiddle := (ih.cons current).trans List.perm_middle.symm
        simpa [hover, hy, hh, List.countP_cons, List.replicate_succ] using hmiddle
      · rw [if_neg hh] at hover
        simpa [hover, hy, hh, List.countP_cons] using ih

theorem removeAll?_yields (front : List Path) {recorded : List Path}
    (h : ∀ r ∈ front ++ recorded, ∀ r' ∈ recorded, r.same r' = true → yields r' current = true →
      yields r current = true) (hfront : ∀ r ∈ front, yields r current = false) :
    removeAll? (recorded.filter (yields · current)) (front ++ recorded ++ [current]) =
      some (front ++ recorded.filter (fun r => !yields r current) ++ [current]) := by
  -- `front` holds the paths passed so far, which all stay
  induction recorded generalizing front with
  | nil => rfl
  | cons r recorded ih =>
    cases hy : yields r current with
    | false =>
      have hrest := ih (front ++ [r])
        (fun x hx x' hx' => h x (by simpa using hx) x' (List.mem_cons_of_mem _ hx')) (by
          intro x hx
          rcases List.mem_append.mp hx with hx | hx
          · exact hfront x hx
          · rw [List.mem_singleton.mp hx, hy])
      simpa [hy] using hrest
    | true =>
      -- no path passed is like `r`, or it would have yielded too
      have hfirst : ∀ x ∈ front, x.same r = false := by
        intro x hx
        by_contra hsame
        have hxy := h x (List.mem_append_left _ hx) r List.mem_cons_self (by simpa using hsame) hy
        rw [hfront x hx] at hxy
        cases hxy
      have hremove : r.remove? (front ++ r :: recorded ++ [current]) =
          some (front ++ recorded ++ [current]) := by
        rw [List.append_assoc, List.cons_append, remove?_of_not_same _ hfirst, List.append_assoc]
      have hrest := ih front (fun x hx x' hx' => h x (by
        rcases List.mem_append.mp hx with hx | hx
        · exact List.mem_append_left _ hx
        · exact List.mem_append_right _ (List.mem_cons_of_mem _ hx)) x'
            (List.mem_cons_of_mem _ hx')) hfront
      simp only [List.filter_cons, hy, if_true, removeAll?, List.foldlM_cons, hremove,
        Option.bind_eq_bind, Option.bind_some, Bool.not_true, Bool.false_eq_true, if_false]
      exact hrest

theorem conclude?_eq {recorded : List Path}
    (h : ∀ r ∈ recorded, ∀ r' ∈ recorded, r.same r' = true → yields r' current = true →
      yields r current = true) : current.conclude? recorded =
      removeAll? (List.replicate (recorded.countP (holdsOut · current)) current)
        (recorded.filter (fun r => !yields r current) ++ [current]) := by
  have hyields := removeAll?_yields [] (by simpa using h) (by simp)
  rw [List.nil_append, List.nil_append] at hyields
  calc current.conclude? recorded
      = removeAll? (recorded.filter (yields · current) ++
          List.replicate (recorded.countP (holdsOut · current)) current) (recorded ++ [current]) :=
        removeAll?_perm (filterMap_overtaken?_perm current recorded) _
    _ = (removeAll? (recorded.filter (yields · current)) (recorded ++ [current])).bind _ :=
        removeAll?_append _ _ _
    _ = _ := by rw [hyields, Option.bind_some]

/-! ### What stays -/

theorem getElem?_of_same (h : p.same q = true) {i : Nat}
    (hb : q[i]? = some b) : ∃ a, p[i]? = some a ∧ a.same b = true := by
  induction p generalizing q i with
  | nil =>
    cases q with
    | nil => cases hb
    | cons y q => cases h
  | cons x p ih =>
    cases q with
    | nil => cases h
    | cons y q =>
      simp only [same, Bool.and_eq_true] at h
      cases i with
      | zero =>
        cases hb
        exact ⟨x, rfl, h.1⟩
      | succ i => exact ih h.2 hb

theorem Superseded.of_same {sink : Token} (hq : Superseded sink q current)
    (h : p.same q = true) (hmarks : ∀ a ∈ p, ∀ b ∈ q, a.same b = true → a.mark = b.mark) :
    Superseded sink p current := by
  obtain ⟨i, b, c, ⟨hb, hc, hbc, hbefore⟩, hbranch, hpos⟩ := hq
  obtain ⟨a, ha, hab⟩ := getElem?_of_same h hb
  have hmark := hmarks a (List.mem_of_getElem? ha) b (List.mem_of_getElem? hb) hab
  refine ⟨i, a, c, ⟨ha, hc, ?_, fun j hj x z hx hz => ?_⟩, ?_, ?_⟩
  · by_contra hac
    rw [Bool.not_eq_false] at hac
    rw [Token.same_trans (Token.same_symm hab) hac] at hbc
    cases hbc
  · obtain ⟨y, hy, hyx⟩ := getElem?_of_same (same_symm h) hx
    exact Token.same_trans (Token.same_symm hyx) (hbefore j hj y z hy hz)
  · rwa [OneBranch, Token.scope, hmark]
  · rwa [Token.pos, hmark]

/-- Recording a path fails if and only if more paths supersede it than there are paths like it,
itself included. If at most one does, and then no path is like it, exactly the paths that it
supersedes go, and it is recorded behind the others unless it is superseded. -/
theorem conclude_superseding {sink : Token} {recorded : List Path} (current : Path)
    (hsink : ∀ r ∈ recorded, r.head? = some sink)
    (hmarks : ∀ p ∈ recorded, ∀ q ∈ recorded, ∀ a ∈ p, ∀ b ∈ q, a.same b = true → a.mark = b.mark) :
    (current.conclude? recorded = none ↔ recorded.countP (·.same current) + 1 <
      recorded.countP fun r => Supersedes sink r current) ∧
    ((recorded.countP fun r => Supersedes sink r current) ≤ 1 →
      ((∃ r ∈ recorded, Supersedes sink r current) → ∀ r ∈ recorded, r.same current = false) →
      current.conclude? recorded = some ((recorded.filter fun r => ¬ Superseded sink r current) ++
        if ∃ r ∈ recorded, Supersedes sink r current then [] else [current])) := by
  have hyields : ∀ r ∈ recorded, yields r current = decide (Superseded sink r current) := fun r hr => by
    rw [Bool.eq_iff_iff, yields_iff (hsink r hr), decide_eq_true_iff]
  have hholds : ∀ r ∈ recorded, holdsOut r current = decide (Supersedes sink r current) := fun r hr => by
    rw [Bool.eq_iff_iff, holdsOut_iff (hsink r hr), decide_eq_true_iff]
  have hcount : recorded.countP (holdsOut · current) =
      recorded.countP fun r => Supersedes sink r current :=
    List.countP_congr fun r hr => by rw [hholds r hr]
  have hkept : recorded.filter (fun r => !yields r current) =
      recorded.filter fun r => ¬ Superseded sink r current :=
    List.filter_congr fun r hr => by rw [hyields r hr, decide_not]
  have halike : (recorded.filter fun r => ¬ Superseded sink r current).countP (·.same current) =
      recorded.countP (·.same current) := by
    rw [← hkept, List.countP_filter]
    refine List.countP_congr fun r _ => ?_
    by_cases hr : r.same current = true
    · simp [hr, yields, firstDifference_of_same hr]
    · simp [hr]
  have hyield : ∀ r ∈ recorded, ∀ r' ∈ recorded, r.same r' = true → yields r' current = true →
      yields r current = true := by
    intro r hr r' hr' hsame hy
    rw [hyields r' hr', decide_eq_true_iff] at hy
    rw [hyields r hr, decide_eq_true_iff]
    exact hy.of_same hsame (hmarks r hr r' hr')
  have hconclude := conclude?_eq hyield
  rw [hcount, hkept] at hconclude
  constructor
  · rw [hconclude, ← Option.not_isSome_iff_eq_none, isSome_removeAll?_replicate, List.countP_append,
      halike, List.countP_singleton, if_pos (same_refl current), Nat.not_le]
  · intro hfew hfresh
    rw [hconclude]
    by_cases hsome : ∃ r ∈ recorded, Supersedes sink r current
    · have hone : (recorded.countP fun r => Supersedes sink r current) = 1 :=
        Nat.le_antisymm hfew (List.countP_pos_iff.mpr (by simpa using hsome))
      rw [hone, if_pos hsome, List.append_nil, List.replicate_one, removeAll?, List.foldlM_cons,
        remove?_of_not_same [] fun r hr => hfresh hsome r (List.mem_of_mem_filter hr), List.append_nil]
      rfl
    · have hnone : (recorded.countP fun r => Supersedes sink r current) = 0 :=
        List.countP_eq_zero.mpr (by simpa using hsome)
      rw [hnone, if_neg hsome]
      rfl

def plainSite (kind : String) (pos branch : Int) (scope : String) : Token :=
  .site 0 ⟨kind, .number 1, pos, branch, branch, branch, .number 0, scope, "m.php"⟩

theorem conclude_superseding_mixed :
    let sink := plainSite "VAR1" 90 0 "m.php"
    let overwritten : Path := [sink, plainSite "INPUT" 10 0 "m.php"]
    let later : Path := [sink, plainSite "VAR2" 80 0 "m.php", plainSite "INPUT" 40 0 "m.php"]
    let branching : Path := [sink, plainSite "VAR2" 80 0 "m.php", plainSite "VAR3" 50 1 "m.php"]
    let current : Path := [sink, plainSite "VAR2" 80 0 "m.php", plainSite "INPUT" 30 0 "m.php"]
    current.conclude? [overwritten, later, branching] = some [later, branching] := by
  intro sink overwritten later branching current
  have hsink : ∀ r ∈ [overwritten, later, branching], r.head? = some sink := by
    simp [overwritten, later, branching]
  have hsuperseding : ∃ r ∈ [overwritten, later, branching], Supersedes sink r current := by
    decide +kernel
  have hoverwritten : Superseded sink overwritten current := by decide +kernel
  have hlater : ¬ Superseded sink later current := by decide +kernel
  have hbranching : ¬ Superseded sink branching current := by decide +kernel
  have hconclude := (conclude_superseding current hsink (by decide +kernel)).2 (by decide +kernel)
    (by decide +kernel)
  rw [if_pos hsuperseding] at hconclude
  simpa [hoverwritten, hlater, hbranching] using hconclude

/-- Two paths that supersede the current one make recording it fail. -/
theorem exists_conclusion_failing : ∃ (sink : Token) (recorded : List Path) (current : Path),
    (∀ r ∈ recorded, r.head? = some sink) ∧ current.head? = some sink ∧
    current.conclude? recorded = none := by
  let sink := plainSite "VAR4" 117 0 "FUNC1"
  let passed := plainSite "VAR1" 60 0 "m.php"
  refine ⟨sink, [[sink, plainSite "CONSTANT_ENCAPSED_STRING" 105 1 "FUNC1"],
    [sink, passed, plainSite "INPUT" 11 0 "m.php"],
    [sink, passed, plainSite "CONSTANT_ENCAPSED_STRING" 38 1 "m.php"]],
    [sink, plainSite "CONSTANT_ENCAPSED_STRING" 47 0 "m.php"], by simp, rfl, ?_⟩
  decide +kernel

end Path

end MaskedTaint
