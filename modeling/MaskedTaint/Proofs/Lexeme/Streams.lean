import MaskedTaint.Proofs.Lexeme.Scanning

/-! The lexemes ahead of a lexer. Gaps are left out, but tags are kept, since a tag may end a
statement. -/

namespace MaskedTaint

namespace Kind

def isTag : Kind → Bool
  | openTag | closeTag => true
  | _ => false

def isGap (kind : Kind) : Bool := kind.isLayout && !kind.isTag

theorem isLayout_of_isGap {kind : Kind} (h : kind.isGap = true) : kind.isLayout = true := by
  simp only [isGap, Bool.and_eq_true] at h
  exact h.1

end Kind

namespace Lexer

/-- The text ahead can be read to its end, and has these lexemes apart from gaps. -/
def Gives (l : Lexer) (ts : List Lexeme) : Prop :=
  l.scan.2.1 = none ∧ (l.scan.1.map Prod.fst).filter (fun t => !t.kind.isGap) = ts

instance (l : Lexer) (ts : List Lexeme) : Decidable (l.Gives ts) := inferInstanceAs (Decidable (_ ∧ _))

variable {l l' : Lexer} {t : Lexeme} {ts skipped : List Lexeme}

theorem gives_gap (h : l.next = .lexeme t l') (ht : t.kind.isGap = true) : l.Gives ts ↔ l'.Gives ts := by
  simp [Gives, scan_of_lexeme h, ht]

theorem gives_lexeme (h : l.next = .lexeme t l') (ht : t.kind.isGap = false) :
    l.Gives ts ↔ ∃ rest, ts = t :: rest ∧ l'.Gives rest := by
  simp only [Gives, scan_of_lexeme h, List.map_cons, List.filter_cons, ht, Bool.not_false, if_true]
  constructor
  · rintro ⟨hread, rfl⟩
    exact ⟨_, rfl, hread, rfl⟩
  · rintro ⟨rest, rfl, hread, rfl⟩
    exact ⟨hread, rfl⟩

theorem gives_finished (h : l.next = .finished l') : l.Gives ts ↔ ts = [] := by
  simp [Gives, scan_of_finished h, eq_comm]

theorem not_gives_failed {e : LexError} (h : l.next = .failed e l') : ¬ l.Gives ts := by
  simp [Gives, scan_of_failed h]

section

variable (wanted : Kind → Bool) (hgap : ∀ kind, kind.isGap = true → wanted kind = false)

include wanted hgap

theorem Gives.find (hskipped : ∀ s ∈ skipped, wanted s.kind = false) (ht : wanted t.kind = true)
    (h : l.Gives (skipped ++ t :: ts)) : ∃ l', l.find wanted = (.ok (some t), l') ∧ l'.Gives ts := by
  fun_induction Lexer.find wanted l generalizing skipped with
  | case1 l u l' hn hu =>
    have hno : u.kind.isGap = false := Bool.eq_false_iff.mpr fun hg => by simp [hgap _ hg] at hu
    obtain ⟨rest, hrest, hl'⟩ := (gives_lexeme hn hno).mp h
    cases skipped with
    | nil =>
      obtain ⟨rfl, rfl⟩ := List.cons.inj hrest
      exact ⟨l', rfl, hl'⟩
    | cons s skipped =>
      obtain ⟨rfl, -⟩ := List.cons.inj hrest
      rw [hskipped s List.mem_cons_self] at hu
      cases hu
  | case2 l u l' hn hu ih =>
    by_cases hg : u.kind.isGap = true
    · exact ih hskipped ((gives_gap hn hg).mp h)
    · obtain ⟨rest, hrest, hl'⟩ := (gives_lexeme hn (by simpa using hg)).mp h
      cases skipped with
      | nil =>
        obtain ⟨rfl, -⟩ := List.cons.inj hrest
        exact absurd ht hu
      | cons s skipped =>
        obtain ⟨-, rfl⟩ := List.cons.inj hrest
        exact ih (fun s hs => hskipped s (List.mem_cons_of_mem _ hs)) hl'
  | case3 l l' hn => simp [gives_finished hn] at h
  | case4 l e l' hn => exact absurd h (not_gives_failed hn)

theorem Gives.find_head (ht : wanted t.kind = true)
    (h : l.Gives (t :: ts)) : ∃ l', l.find wanted = (.ok (some t), l') ∧ l'.Gives ts :=
  Gives.find wanted hgap (fun s (hs : s ∈ []) => absurd hs List.not_mem_nil) ht h

/-! ### Positions -/

end

theorem Gives.sorted (h : l.Gives ts) :
    ts.Pairwise (fun t u => t.pos < u.pos) ∧ ∀ t ∈ ts, l.pos ≤ t.pos := by
  fun_induction scan l generalizing ts with
  | case1 l t l' hn rest e last hscan ih =>
    obtain ⟨hpos, hlt⟩ := next_pos hn
    by_cases hgap : t.kind.isGap = true
    · obtain ⟨hsorted, hle⟩ := ih ((gives_gap hn hgap).mp h)
      exact ⟨hsorted, fun u hu => Int.le_trans (Int.le_of_lt hlt) (hle u hu)⟩
    · obtain ⟨rest, rfl, hrest⟩ := (gives_lexeme hn (by simpa using hgap)).mp h
      obtain ⟨hsorted, hle⟩ := ih hrest
      refine ⟨List.pairwise_cons.mpr ⟨fun u hu => ?_, hsorted⟩, fun u hu => ?_⟩
      · have := hle u hu
        omega
      · rcases List.mem_cons.mp hu with rfl | hu
        · omega
        · have := hle u hu
          omega
  | case2 l l' hn => simp [(gives_finished hn).mp h]
  | case3 l e l' hn => exact absurd h (not_gives_failed hn)

end Lexer

end MaskedTaint
