import MaskedTaint.Proofs.Search.Candidates
import MaskedTaint.Proofs.Search.Chains
import MaskedTaint.Proofs.Search.Pruning

/-! Traces: all ways back from a token in a structure with one scope, as a search meets them.
Traces come in the order of their positions; the ones that yield to no other are the paths of
the token. -/

namespace MaskedTaint

def Token.SameBranch (t u : Token) : Prop :=
  t.mark.depth = u.mark.depth ∧ t.mark.order = u.mark.order ∧ t.mark.flow = u.mark.flow

namespace Structure

structure Single (d : Structure) (scope : String) : Prop where
  names : d.names = [scope]
  calls : d.tokens? scope Special.call.name = none
  imports : d.tokens? scope Special.imports.name = none
  kind : ∀ key t, d.Entry scope key t → t.kind ≠ Special.call.name
  apart : ∀ key t key' u, d.Entry scope key t → d.Entry scope key' u → t.same u = true → t = u
  ascending : ∀ key ts, d.tokens? scope key = some ts → ts.Pairwise fun t u => t.pos < u.pos
  scope : ∀ key t, d.Entry scope key t → t.scope = scope

structure OneScope (d : Structure) (name : String) : Prop extends d.Single name where
  split : ∀ key t key' u, d.Entry name key t → d.Entry name key' u → t.split = u.split

def below (d : Structure) (t : Token) : Nat := (d.occurrences.filter fun u => u.pos < t.pos).length

variable {t : Token} {p : Path}

theorem below_lt {d : Structure} {scope key : String} {u : Token} (hu : d.Entry scope key u)
    (hlt : u.pos < t.pos) : d.below u < d.below t := by
  have hfilter : d.occurrences.filter (fun x => x.pos < u.pos) =
      (d.occurrences.filter fun x => x.pos < t.pos).filter fun x => x.pos < u.pos := by
    rw [List.filter_filter]
    refine List.filter_congr fun x _ => ?_
    rw [Bool.eq_iff_iff]
    simp only [Bool.and_eq_true, decide_eq_true_eq]
    omega
  have hmem : u ∈ d.occurrences.filter fun x => x.pos < t.pos :=
    List.mem_filter.mpr ⟨hu.mem_occurrences, by simpa using hlt⟩
  rw [below, below, hfilter]
  exact List.length_filter_lt_length_iff_exists.mpr ⟨u, hmem, by simp⟩

theorem below_le (d : Structure) (t : Token) : d.below t ≤ d.occurrences.length :=
  List.length_filter_le _ _

def traces (d : Structure) (scope : String) (t : Token) : List Path :=
  match _h : d.tokens? scope t.kind with
  | none => [[t]]
  | some ts =>
    (ts.filter fun u => u.pos < t.pos).attach.flatMap fun u => (traces d scope u.1).map (t :: ·)
termination_by d.below t
decreasing_by
  obtain ⟨hu, hlt⟩ := List.mem_filter.mp u.2
  exact below_lt ⟨ts, _h, hu⟩ (by simpa using hlt)

variable {d : Structure} {scope : String}

theorem traces_of_none (h : d.tokens? scope t.kind = none) : d.traces scope t = [[t]] := by
  rw [traces]
  split <;> simp_all

theorem traces_of_some {ts : List Token} (h : d.tokens? scope t.kind = some ts) : d.traces scope t =
      (ts.filter fun u => u.pos < t.pos).flatMap fun u => (d.traces scope u).map (t :: ·) := by
  have hattach := List.flatMap_map Subtype.val (fun u => (d.traces scope u).map (t :: ·))
    (ts.filter fun u => u.pos < t.pos).attach
  rw [List.attach_map_subtype_val] at hattach
  rw [traces, hattach]
  split <;> simp_all

theorem mem_traces : p ∈ d.traces scope t ↔ d.tokens? scope t.kind = none ∧ p = [t] ∨
      ∃ u r, d.Entry scope t.kind u ∧ u.pos < t.pos ∧ r ∈ d.traces scope u ∧ p = t :: r := by
  cases h : d.tokens? scope t.kind with
  | none => simp [traces_of_none h, Entry, h]
  | some ts =>
    rw [traces_of_some h]
    simp only [List.mem_flatMap, List.mem_filter, List.mem_map, decide_eq_true_eq, reduceCtorEq,
      false_and, false_or, Entry, h, Option.some.injEq, exists_eq_left']
    constructor
    · rintro ⟨u, ⟨hu, hlt⟩, r, hr, rfl⟩
      exact ⟨u, r, hu, hlt, hr, rfl⟩
    · rintro ⟨u, r, hu, hlt, hr, rfl⟩
      exact ⟨u, ⟨hu, hlt⟩, r, hr, rfl⟩

theorem exists_cons_of_mem_traces (h : p ∈ d.traces scope t) : ∃ r, p = t :: r := by
  rcases mem_traces.mp h with ⟨-, rfl⟩ | ⟨u, r, -, -, -, rfl⟩
  · exact ⟨[], rfl⟩
  · exact ⟨r, rfl⟩

theorem entry_of_mem_trace {x : Token} (h : t :: p ∈ d.traces scope t) (hx : x ∈ p) :
    x.pos < t.pos ∧ ∃ key, d.Entry scope key x := by
  induction p generalizing t with
  | nil => cases hx
  | cons y p ih =>
    rcases mem_traces.mp h with ⟨-, hp⟩ | ⟨u, r, hu, hlt, hr, hp⟩
    · cases hp
    · cases hp
      obtain ⟨r, hr'⟩ := exists_cons_of_mem_traces hr
      cases hr'
      rcases List.mem_cons.mp hx with rfl | hx
      · exact ⟨hlt, _, hu⟩
      · obtain ⟨hpos, hkey⟩ := ih hr hx
        exact ⟨by omega, hkey⟩

theorem entry_of_mem_traces {x : Token} (ht : ∃ key, d.Entry scope key t) (h : p ∈ d.traces scope t)
    (hx : x ∈ p) : ∃ key, d.Entry scope key x := by
  obtain ⟨r, rfl⟩ := exists_cons_of_mem_traces h
  rcases List.mem_cons.mp hx with rfl | hx
  · exact ht
  · exact (entry_of_mem_trace h hx).2

/-! ### Order -/

theorem Single.traces_pairwise (h : d.Single scope) (t : Token) :
    (d.traces scope t).Pairwise Path.Earlier := by
  induction hn : d.below t using Nat.strong_induction_on generalizing t with | _ n ih
  cases hkey : d.tokens? scope t.kind with
  | none => simp [traces_of_none hkey]
  | some ts =>
    rw [traces_of_some hkey]
    have hcons : ∀ p q, Path.Earlier p q → Path.Earlier (t :: p) (t :: q) := by
      rintro p q ⟨a, b, hd, hlt⟩
      exact ⟨a, b, by simpa [Token.same_refl] using hd, hlt⟩
    refine List.pairwise_flatMap.mpr ⟨fun u hu => ?_, ?_⟩
    · obtain ⟨hu, hlt⟩ := List.mem_filter.mp hu
      have hbelow : d.below u < n := hn ▸ below_lt ⟨ts, hkey, hu⟩ (by simpa using hlt)
      exact List.pairwise_map.mpr ((ih _ hbelow u rfl).imp (hcons _ _))
    · refine ((h.ascending _ _ hkey).filter _).imp_of_mem fun {u w} hu hw hlt p hp q hq => ?_
      obtain ⟨r, hr, rfl⟩ := List.mem_map.mp hp
      obtain ⟨x, hx, rfl⟩ := List.mem_map.mp hq
      obtain ⟨r, rfl⟩ := exists_cons_of_mem_traces hr
      obtain ⟨x, rfl⟩ := exists_cons_of_mem_traces hx
      have hne : u.same w = false := by
        by_contra hsame
        have heq := h.apart _ u _ w ⟨ts, hkey, (List.mem_filter.mp hu).1⟩
          ⟨ts, hkey, (List.mem_filter.mp hw).1⟩ (by simpa using hsame)
        subst heq
        omega
      exact hcons _ _ ⟨u, w, by simp [hne], hlt⟩

def paths (d : Structure) (scope : String) (t : Token) : List Path := Path.standing (d.traces scope t)

theorem mem_traces_of_mem_paths (h : p ∈ d.paths scope t) : p ∈ d.traces scope t :=
  (Path.mem_standing.mp h).1

theorem paths_of_none (h : d.tokens? scope t.kind = none) : d.paths scope t = [[t]] := by
  simp [paths, traces_of_none h, Path.standing, Path.not_yields_self]

theorem head?_of_mem_paths (h : p ∈ d.paths scope t) : p.head? = some t := by
  obtain ⟨r, rfl⟩ := exists_cons_of_mem_traces (mem_traces_of_mem_paths h)
  rfl

theorem entry_of_mem_paths {x : Token} (ht : ∃ key, d.Entry scope key t)
    (h : p ∈ d.paths scope t) (hx : x ∈ p) : ∃ key, d.Entry scope key x :=
  entry_of_mem_traces ht (mem_traces_of_mem_paths h) hx

theorem Single.falls (h : d.Single scope) (ht : ∃ key, d.Entry scope key t)
    (hkey : d.tokens? scope t.kind ≠ none) (hp : p ∈ d.paths scope t) : Catalog.Falls t p := by
  obtain ⟨key, ht⟩ := ht
  rcases mem_traces.mp (mem_traces_of_mem_paths hp) with ⟨hnone, -⟩ | ⟨u, r, hu, -, hr, rfl⟩
  · exact absurd hnone hkey
  · obtain ⟨r, rfl⟩ := exists_cons_of_mem_traces hr
    exact ⟨u, r, rfl, (h.scope _ _ hu).trans (h.scope _ _ ht).symm,
      fun x hx => (entry_of_mem_trace hr hx).1⟩

theorem Single.mem_relevantOf (h : d.Single scope) (ht : ∃ key, d.Entry scope key t) (q : Path) :
    q ∈ Catalog.relevantOf (d.paths scope t) ↔ Catalog.IsNearest (d.paths scope t) q := by
  cases hkey : d.tokens? scope t.kind with
  | none =>
    rw [paths_of_none hkey]
    constructor
    · intro hq
      have hq : q = [t] := by simpa [Catalog.relevantOf, Catalog.nearest] using hq
      exact ⟨[], [], by simp [hq], by simp, by simp⟩
    · intro hq
      have hq : q = [t] := by simpa using hq.mem
      simp [Catalog.relevantOf, hq]
  | some ts =>
    have hfalls : ∀ p ∈ d.paths scope t, Catalog.Falls t p := fun p hp =>
      h.falls ht (by simp [hkey]) hp
    have hlong : (d.paths scope t).filter (fun p => p.length == 1) = [] := by
      refine List.filter_eq_nil_iff.mpr fun p hp => ?_
      obtain ⟨u, r, rfl, -⟩ := hfalls p hp
      simp
    by_cases hempty : d.paths scope t = []
    · have hnone : Catalog.relevantOf ([] : List Path) = [] := rfl
      rw [hempty, hnone]
      constructor
      · intro hq
        cases hq
      · intro hq
        exact hq.mem
    · obtain ⟨r, hr, hnearest⟩ := Catalog.nearest_of_falls hfalls hempty
      simp only [Catalog.relevantOf, hlong, hr, Option.toList_some, List.nil_append,
        List.mem_singleton]
      constructor
      · rintro rfl
        exact hnearest
      · intro hq
        exact hq.unique hfalls hnearest

theorem Single.path_apart (h : d.Single scope) {q : Path}
    (hp : ∀ x ∈ p, ∃ key, d.Entry scope key x) (hq : ∀ x ∈ q, ∃ key, d.Entry scope key x)
    (hsame : p.same q = true) : p = q := by
  induction p generalizing q with
  | nil =>
    cases q with
    | nil => rfl
    | cons b q => cases hsame
  | cons a p ih =>
    cases q with
    | nil => cases hsame
    | cons b q =>
      simp only [Path.same, Bool.and_eq_true] at hsame
      obtain ⟨key, ha⟩ := hp a List.mem_cons_self
      obtain ⟨key', hb⟩ := hq b List.mem_cons_self
      rw [h.apart _ _ _ _ ha hb hsame.1,
        ih (fun x hx => hp x (List.mem_cons_of_mem _ hx))
          (fun x hx => hq x (List.mem_cons_of_mem _ hx)) hsame.2]

/-! ### Chains that stand -/

/-- A chain back from a token that no later token on the same branch breaks. -/
inductive Unbroken (d : Structure) (scope : String) : Path → Prop
  | last {t : Token} (h : d.tokens? scope t.kind = none) : Unbroken d scope [t]
  | step {t u : Token} {p : Path} (hu : d.Entry scope t.kind u) (hlt : u.pos < t.pos)
      (hlast : ∀ w, d.Entry scope t.kind w → u.pos < w.pos → w.pos < t.pos → ¬ u.SameBranch w)
      (hp : Unbroken d scope (u :: p)) : Unbroken d scope (t :: u :: p)

theorem Unbroken.mem_traces (h : d.Unbroken scope (t :: p)) : t :: p ∈ d.traces scope t := by
  induction p generalizing t with
  | nil =>
    cases h with
    | last h => exact Structure.mem_traces.mpr (.inl ⟨h, rfl⟩)
  | cons u p ih =>
    cases h with
    | step hu hlt _ hp => exact Structure.mem_traces.mpr (.inr ⟨u, u :: p, hu, hlt, ih hp, rfl⟩)

theorem OneScope.mem_paths_of_unbroken (h : d.OneScope scope)
    (ht : ∃ key, d.Entry scope key t) (hp : d.Unbroken scope (t :: p)) :
    t :: p ∈ d.paths scope t := by
  refine Path.mem_standing.mpr ⟨hp.mem_traces, ?_⟩
  induction p generalizing t with
  | nil =>
    intro q hq
    obtain ⟨r, rfl⟩ := exists_cons_of_mem_traces hq
    cases r <;> simp [Path.yields, Token.same_refl, Path.firstDifference]
  | cons u p ih =>
    intro q hq
    cases hp with
    | step hu hlt hlast hp =>
      rcases Structure.mem_traces.mp hq with ⟨hnone, -⟩ | ⟨w, r, hw, hwt, hr, rfl⟩
      · obtain ⟨ts, hts, -⟩ := hu
        rw [hnone] at hts
        cases hts
      · obtain ⟨r, rfl⟩ := exists_cons_of_mem_traces hr
        obtain ⟨key, ht⟩ := ht
        have hhead : some t.split = some u.split := by rw [h.split _ _ _ _ ht hu]
        cases hsame : u.same w with
        | true =>
          cases h.apart _ _ _ _ hu hw hsame
          have := ih ⟨_, hu⟩ hp (u :: r) hr
          simp only [Path.yields, Path.firstDifference_cons, Token.same_refl, if_true] at this ⊢
          simpa only [Path.comparable, List.head?_cons, Option.map_some, hhead] using this
        | false =>
          simp only [Path.yields, Path.firstDifference_cons, Token.same_refl, if_true, hsame,
            Bool.false_eq_true, if_false]
          by_cases hpos : u.pos < w.pos
          · have hbranch := hlast w hw hpos hwt
            simp only [Token.SameBranch, not_and] at hbranch
            simp only [Path.comparable, Bool.and_eq_false_iff, beq_eq_false_iff_ne]
            grind
          · simp [hpos]

end Structure

end MaskedTaint
