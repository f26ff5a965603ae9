import MaskedTaint.Proofs.Masking.Supply

/-! The lexer of a masker never goes back. Every symbol brings it further, unless the symbol had
been read ahead. -/

namespace MaskedTaint

namespace Lexer

theorem next_pos_le (l : Lexer) :
    match l.next with
    | .lexeme _ l' => l.pos < l'.pos
    | .finished l' => l.pos ≤ l'.pos
    | .failed _ l' => l.pos ≤ l'.pos := by
  cases hn : l.next with
  | lexeme t l' => exact (next_pos hn).2
  | finished l' =>
    cases does_next hn with
    | finished hloaded hrest => exact Int.le_add_one (Int.le_refl _)
  | failed e l' =>
    cases does_next hn with
    | unloaded hloaded => exact Int.le_add_one (Int.le_refl _)
    | stuck hloaded hrest hmatch => exact Int.le_refl _
    | @failed rule width _ _ hloaded hrest hmatch hact =>
      have hplace := act_samePlace (l.advance width) (String.ofList (l.rest.take width))
        (rule.action (l.rest.take width) (l.rest.drop width).head?)
      rw [hact] at hplace
      have hpos : l'.pos = l.pos + (l.rest.take width).length := hplace.pos
      dsimp only
      omega

end Lexer

/-- Nothing before this place is found any more. -/
def Watch.beyond (place : Int) : Watch where
  kept l := place ≤ l.pos
  found t l := place ≤ t.pos ∧ t.pos < l.pos

theorem Watch.holds_beyond (place : Int) : (beyond place).Holds where
  lexeme {l l' t} (hl : place ≤ l.pos) hn := by
    obtain ⟨hpos, hlt⟩ := Lexer.next_pos hn
    exact ⟨Int.le_trans hl (Int.le_of_lt hlt), hpos ▸ hl, hpos ▸ hlt⟩
  finished {l l'} hl hn := by
    have hle := l.next_pos_le
    rw [hn] at hle
    exact ⟨Int.le_trans hl hle, trivial⟩
  failed {l l' e} hl hn := by
    have hle := l.next_pos_le
    rw [hn] at hle
    exact Int.le_trans hl hle

namespace Masker

variable {m m' : Masker} {t : Masked} {place : Int}

theorem sifts_beyond : (Watch.beyond place).Sifts fun u l => place ≤ u.pos ∧ u.pos < l.pos where
  sift ht h := by
    have hpos : _ = _ := (sift_cases h).elim (fun hu => congrArg Masked.pos hu.1) And.right
    exact hpos ▸ ht
  masked ht _ := ht

/-- A symbol stands between the place where it was looked for and the place where the next one
will be. -/
theorem token_between (hm : m.Abides (.beyond place)) (h : token m = (.ok (some t), m')) :
    place ≤ t.pos ∧ ∃ place', t.pos < place' ∧ m'.Abides (.beyond place') := by
  obtain ⟨v, m₁, m₂, -, hpeeked, ⟨hlower, hupper⟩, hmask, rfl⟩ :=
    (Watch.holds_beyond place).of_token sifts_beyond hm h
  have hpos := (mask_enters v m₁ t m₂ hmask).toll.1
  have hstays := (Watch.holds_beyond m₁.lexer.pos).steady.mask v m₁
  rw [hmask] at hstays
  have hafter := hstays (abides_of_none (Int.le_refl _) hpeeked)
  exact ⟨hpos ▸ hlower, m₁.lexer.pos, hpos ▸ hupper, hafter.lexer, hafter.peeked⟩

end Masker

end MaskedTaint
