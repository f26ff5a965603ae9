import Mathlib.Data.List.Induction
import Mathlib.Data.List.Pairwise
import MaskedTaint.Proofs.Search.Concluding

/-! Which paths stay recorded. Where paths are recorded in the order of their positions, a path
is dropped if and only if a later one leaves it, on the same branch, for a later token. -/

namespace MaskedTaint

namespace Path

theorem firstDifference_swap (p q : Path) :
    firstDifference q p = (firstDifference p q).map Prod.swap := by
  induction p generalizing q with
  | nil => cases q <;> rfl
  | cons a p ih =>
    cases q with
    | nil => rfl
    | cons b q =>
      have hsame : b.same a = a.same b := by
        rw [Bool.eq_iff_iff]
        exact ⟨Token.same_symm, Token.same_symm⟩
      rw [firstDifference_cons, firstDifference_cons, hsame, ih]
      split <;> rfl

def Earlier (p q : Path) : Prop := ∃ a b, firstDifference p q = some (a, b) ∧ a.pos < b.pos

variable {p q : Path} {ps : List Path}

theorem Earlier.not_same (h : Earlier p q) : p.same q = false := by
  obtain ⟨a, b, hd, -⟩ := h
  by_contra hsame
  rw [firstDifference_of_same (by simpa using hsame)] at hd
  cases hd

theorem Earlier.not_holdsOut (h : Earlier p q) : holdsOut p q = false := by
  obtain ⟨a, b, hd, hlt⟩ := h
  simp [holdsOut, hd, hlt]

theorem Earlier.not_yields (h : Earlier p q) : yields q p = false := by
  obtain ⟨a, b, hd, hlt⟩ := h
  have hswap : firstDifference q p = some (b, a) := by
    rw [firstDifference_swap, hd]
    rfl
  simpa [yields, hswap] using fun _ => Int.le_of_lt hlt

theorem not_yields_self (p : Path) : yields p p = false := by
  simp [yields, firstDifference_of_same (same_refl p)]

theorem conclude?_of_earlier (hps : ps.Pairwise Earlier) (hq : ∀ p ∈ ps, Earlier p q) :
    q.conclude? ps = some (ps.filter (fun p => !yields p q) ++ [q]) := by
  have hapart : ps.Pairwise fun p r => p.same r = false := hps.imp fun h => h.not_same
  have hsymm : Std.Symm fun p r : Path => p.same r = false := ⟨fun p r h => same_comm r p ▸ h⟩
  have hnone : ps.countP (holdsOut · q) = 0 :=
    List.countP_eq_zero.mpr fun p hp => by rw [(hq p hp).not_holdsOut]; decide
  rw [conclude?_eq fun p hp r hr hsame hy => ?_, hnone]
  · rfl
  · by_cases hpr : p = r
    · exact hpr ▸ hy
    · rw [hapart.forall hp hr hpr] at hsame
      cases hsame

def concludeAll? (ps recorded : List Path) : Option (List Path) :=
  ps.foldlM (fun recorded p => p.conclude? recorded) recorded

theorem concludeAll?_append (ps qs recorded : List Path) :
    concludeAll? (ps ++ qs) recorded = (concludeAll? ps recorded).bind (concludeAll? qs) :=
  List.foldlM_append

def standing (ps : List Path) : List Path := ps.filter fun p => ps.all fun q => !yields p q

theorem mem_standing : p ∈ standing ps ↔ p ∈ ps ∧ ∀ q ∈ ps, yields p q = false := by
  simp [standing]

theorem concludeAll?_of_pairwise (h : ps.Pairwise Earlier) :
    concludeAll? ps [] = some (standing ps) := by
  induction ps using List.reverseRecOn with
  | nil => rfl
  | append_singleton ps q ih =>
    obtain ⟨hps, -, hq⟩ := List.pairwise_append.mp h
    have hlast : ∀ p ∈ ps, Earlier p q := fun p hp => hq p hp q (by simp)
    have hstanding : standing (ps ++ [q]) =
        (standing ps).filter (fun p => !yields p q) ++ [q] := by
      have hqs : ∀ p ∈ ps, yields q p = false := fun p hp => (hlast p hp).not_yields
      simp only [standing, List.filter_append, List.filter_filter, List.all_append, List.all_cons,
        List.all_nil, Bool.and_true, List.filter_cons, List.filter_nil, not_yields_self,
        Bool.not_false]
      rw [if_pos (by simpa using hqs)]
      simp only [Bool.and_comm]
    rw [concludeAll?_append, ih hps, Option.bind_some, hstanding]
    have hstand : (standing ps).Pairwise Earlier := hps.filter _
    have hbefore : ∀ p ∈ standing ps, Earlier p q := fun p hp => hlast p (mem_standing.mp hp).1
    simp [concludeAll?, conclude?_of_earlier hstand hbefore]

end Path

end MaskedTaint
