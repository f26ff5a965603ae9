import MaskedTaint.Masking.Symbol

/-! Names and their numbers. A table of names only grows, so a name keeps its number. -/

namespace MaskedTaint

namespace Names

theorem number_cases (ns : Names) (x : String) : x ∈ ns ∧ ns.number x = (ns.idxOf x + 1, ns) ∨
    x ∉ ns ∧ ns.number x = (ns.length + 1, ns ++ [x]) := by
  unfold number
  cases hi : List.findIdx? (fun y => y == x) ns with
  | some i =>
    obtain ⟨hlt, hi⟩ := List.findIdx?_eq_some_iff_findIdx_eq.mp hi
    have hidx : ns.idxOf x = i := hi
    exact .inl ⟨List.idxOf_lt_length_iff.mp (hidx ▸ hlt), by rw [hidx]⟩
  | none =>
    refine .inr ⟨fun hx => ?_, rfl⟩
    simpa using List.findIdx?_eq_none_iff.mp hi x hx

theorem extends_number (ns : Names) (x : String) : ns <+: (ns.number x).2 := by
  rcases ns.number_cases x with ⟨-, hn⟩ | ⟨-, hn⟩ <;> simp [hn]

theorem number_eq {ns N : Names} {x : String} (h : (ns.number x).2 <+: N) :
    (ns.number x).1 = N.idxOf x + 1 := by
  obtain ⟨later, rfl⟩ := h
  rcases ns.number_cases x with ⟨hx, hn⟩ | ⟨hx, hn⟩ <;> simp [hn, List.idxOf_append, hx]

theorem mem_number (ns : Names) (x : String) : x ∈ (ns.number x).2 := by
  rcases ns.number_cases x with ⟨hx, hn⟩ | ⟨-, hn⟩ <;> simp [*]

theorem number_bounds (ns : Names) (x : String) :
    1 ≤ (ns.number x).1 ∧ (ns.number x).1 ≤ (ns.number x).2.length := by
  have hlt := List.idxOf_lt_length_iff.mpr (ns.mem_number x)
  rw [number_eq List.prefix_rfl]
  omega

theorem nodup_number {ns : Names} (h : ns.Nodup) (x : String) : (ns.number x).2.Nodup := by
  rcases ns.number_cases x with ⟨-, hn⟩ | ⟨hx, hn⟩
  · simpa [hn] using h
  · simpa [hn, List.nodup_append, h] using fun y hy => ne_of_mem_of_not_mem hy hx

structure Grown (ns ns' : Names) : Prop where
  kept : ns <+: ns'
  nodup : ns.Nodup → ns'.Nodup

theorem Grown.refl (ns : Names) : Grown ns ns := ⟨List.prefix_rfl, id⟩

theorem Grown.trans {ns₁ ns₂ ns₃ : Names} (h : Grown ns₁ ns₂) (h' : Grown ns₂ ns₃) : Grown ns₁ ns₃ :=
  ⟨h.kept.trans h'.kept, h'.nodup ∘ h.nodup⟩

theorem grown_number (ns : Names) (x : String) : Grown ns (ns.number x).2 :=
  ⟨ns.extends_number x, fun h => nodup_number h x⟩

end Names

end MaskedTaint
