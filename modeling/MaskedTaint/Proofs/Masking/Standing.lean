import MaskedTaint.Proofs.Lexeme.Parallel
import MaskedTaint.Proofs.Masking.Books

/-! Where the lexer of a masker stands. A masker reads ahead only behind words and inputs, so when
it delivers a sign that joins texts its lexer stands right behind that sign, and when it fails or
closes a block nothing has been read ahead. -/

namespace MaskedTaint

namespace Masker

def Behind (l : Lexer) (u : Masked) : Prop :=
  ∀ kind, u.symbol = .plain kind → kind.joins = true → l.pos = u.pos + 1

theorem behind_of_next {l l' : Lexer} {t : Lexeme} (h : l.Disciplined)
    (hn : l.next = .lexeme t l') : Behind l' t.masked := by
  obtain ⟨-, -, -, -, hpos⟩ := h.exists_shift hn
  intro kind hkind hjoins
  cases hkind
  exact hpos hjoins

end Masker

def Watch.standing : Watch where
  kept := Lexer.Disciplined
  found t l := Masker.Behind l t.masked

theorem Watch.holds_standing : Watch.standing.Holds where
  lexeme {l l' t} (hl : l.Disciplined) hn := by
    have hafter := hl.next
    rw [hn] at hafter
    exact ⟨hafter, Masker.behind_of_next hl hn⟩
  finished {l l'} (hl : l.Disciplined) hn := by
    have hafter := hl.next
    rw [hn] at hafter
    exact ⟨hafter, trivial⟩
  failed {l l' e} (hl : l.Disciplined) hn := by
    have hafter := hl.next
    rwa [hn] at hafter

namespace Masker

theorem sifts_standing : Watch.standing.Sifts fun u l => Behind l u where
  sift ht h := by
    rcases sift_cases h with ⟨rfl, -⟩ | ⟨hs, -⟩
    · exact ht
    · intro kind hkind hjoins
      rw [hs] at hkind
      cases hkind
      cases hjoins
  masked ht _ := ht

structure Clear (m : Masker) : Prop where
  disciplined : m.lexer.Disciplined
  peeked : m.peeked = none

abbrev Sits (m : Masker) : Prop := m.Abides .standing

theorem Clear.sits {m : Masker} (h : m.Clear) : m.Sits := abides_of_none h.disciplined h.peeked

theorem Brings.clear {α : Type} {F : α → Lexer → Prop} {run : Except MaskError (Option α) × Masker}
    (h : Brings .standing F run) : run.2.Clear := ⟨h.kept, h.peeked⟩

theorem Clear.loadFile {m : Masker} (h : m.Clear) (text : List Char) : (m.loadFile text).Clear :=
  ⟨h.disciplined.of_eq rfl rfl, h.peeked⟩

variable {m : Masker} {t : Masked}

theorem clear_of_peek_error {m' : Masker} {e : MaskError} (h : m.Clear) (he : peek m = (.error e, m')) :
    m'.Clear := by
  have hskip := Watch.holds_standing.skipTo (fun kind => !kind.isLayout) h.sits
  simp only [peek, skipLayout, Act.state_bind, h.peeked] at he
  rcases hs : skipTo (fun kind => !kind.isLayout) m with ⟨e | t, m₁⟩
  · rw [Act.bind_of_error hs] at he
    cases he
    rw [hs] at hskip
    exact hskip.clear
  · rw [Act.bind_of_ok hs] at he
    cases he

/-! ### Acts that read nothing ahead -/

theorem steady_clear : Steady fun m m' => m.Clear → m'.Clear where
  trans _ _ _ h h' := h' ∘ h
  same hlexer hpeeked _ _ _ h := ⟨hlexer ▸ h.disciplined, hpeeked ▸ h.peeked⟩
  vars _ _ h := ⟨h.disciplined, h.peeked⟩
  ops _ _ h := ⟨h.disciplined, h.peeked⟩
  funcs _ _ h := ⟨h.disciplined, h.peeked⟩
  skipTo wanted _ h := (Watch.holds_standing.skipTo wanted h.sits).clear

/-! ### Symbols -/

structure Rests (r : Except MaskError (Option Masked) × Masker) : Prop where
  sits : r.2.Sits
  behind : ∀ u, r.1 = .ok (some u) → Behind r.2.lexer u
  clear : (∀ u, r.1 = .ok (some u) → u.symbol ≠ .plain .word ∧ u.symbol ≠ .plain .input) → r.2.Clear

/-- Behind a word or an input the masker may have read ahead, but not if it fails. -/
structure MayPeek {α : Type} (r : Except MaskError α × Masker) : Prop where
  sits : r.2.Sits
  clear : ∀ e, r.1 = .error e → r.2.Clear

theorem callOrWord_mayPeek (number : Nat) (t : Masked) (h : m.Clear) :
    MayPeek (callOrWord number t m) ∧ ∀ u, (callOrWord number t m).1 = .ok u →
      u.symbol ≠ t.symbol → (callOrWord number t m).2.Clear := by
  have hsits := Watch.holds_standing.peek h.sits
  unfold callOrWord
  rcases hp : peek m with ⟨e | next, m'⟩
  · have hclear := clear_of_peek_error h hp
    rw [Act.bind_of_error hp]
    exact ⟨⟨hclear.sits, fun _ _ => hclear⟩, fun u hu => by cases hu⟩
  · rw [hp] at hsits
    rw [Act.bind_of_ok hp]
    split
    · have hcall : Clear { m' with peeked := none, parens := m'.parens + 1, inCall := true } :=
        ⟨hsits.lexer, rfl⟩
      exact ⟨⟨hcall.sits, fun _ _ => hcall⟩, fun _ _ _ => hcall⟩
    · refine ⟨⟨hsits, fun e he => by cases he⟩, fun u hu hne => ?_⟩
      cases hu
      exact absurd rfl hne

theorem skipOffset_mayPeek (h : m.Clear) : MayPeek (skipOffset m) := by
  have hsits := Watch.holds_standing.peek h.sits
  unfold skipOffset
  rcases hp : peek m with ⟨e | next, m'⟩
  · have hclear := clear_of_peek_error h hp
    rw [Act.bind_of_error hp]
    exact ⟨hclear.sits, fun _ _ => hclear⟩
  · rw [hp] at hsits
    rw [Act.bind_of_ok hp]
    split
    · have hskip := Watch.holds_standing.skipTo (· == .rightBracket) hsits
      rcases hs : skipTo (· == .rightBracket) m' with ⟨e | t, n⟩
      · rw [hs] at hskip
        rw [Act.bind_of_error hs]
        exact ⟨hskip.clear.sits, fun _ _ => hskip.clear⟩
      · rw [hs] at hskip
        rw [Act.bind_of_ok hs]
        exact ⟨hskip.clear.sits, fun _ _ => hskip.clear⟩
    · exact ⟨hsits, fun e he => by cases he⟩

theorem mask_of_joins {kind : Kind} (ht : t.symbol = .plain kind)
    (hjoins : kind.joins = true) : mask t = pure t := by
  unfold mask
  rw [ht]
  cases kind <;> first | rfl | cases hjoins

theorem mask_behind {u : Masked} {m' : Masker} (ht : Behind m.lexer t)
    (h : mask t m = (.ok u, m')) : Behind m'.lexer u := by
  intro kind hkind hjoins
  have hsame : u = t := by
    have henters := mask_enters t m u m' h
    generalize m'.books = b' at henters
    cases henters <;> first | rfl | cases hkind
  subst hsame
  rw [mask_of_joins hkind hjoins] at h
  cases h
  exact ht kind hkind hjoins

theorem mask_rests (h : m.Clear) :
    MayPeek (mask t m) ∧ ∀ u, (mask t m).1 = .ok u → u.symbol ≠ .plain .word →
      u.symbol ≠ .plain .input → (mask t m).2.Clear := by
  by_cases hword : t.symbol = .plain .word
  · have hmask : mask t = maskWord t := by
      unfold mask
      rw [hword]
    have hnumbered : Clear { m with funcs := (m.funcs.number t.text).2 } := ⟨h.disciplined, h.peeked⟩
    rw [hmask, maskWord_apply]
    split
    · have hclear := steady_clear.declare (m.funcs.number t.text).1 t _ hnumbered
      exact ⟨⟨hclear.sits, fun _ _ => hclear⟩, fun _ _ _ _ => hclear⟩
    · obtain ⟨hpeek, hclear⟩ := callOrWord_mayPeek (m.funcs.number t.text).1 t hnumbered
      exact ⟨hpeek, fun u hu hne _ => hclear u hu (hword ▸ hne)⟩
  · by_cases hinput : t.symbol = .plain .input
    · have hmask : mask t = skipOffset >>= fun _ => pure t := by
        unfold mask
        rw [hinput]
      have hpeek := skipOffset_mayPeek h
      rw [hmask]
      rcases hs : skipOffset m with ⟨e | v, m'⟩
      · rw [hs] at hpeek
        rw [Act.bind_of_error hs]
        exact ⟨⟨hpeek.sits, fun _ _ => hpeek.clear e rfl⟩, fun u hu => by cases hu⟩
      · rw [hs] at hpeek
        rw [Act.bind_of_ok hs]
        refine ⟨⟨hpeek.sits, fun e he => by cases he⟩, fun u hu _ hne => ?_⟩
        cases hu
        exact absurd hinput hne
    · have hclear := steady_clear.mask_of_ne hword hinput m h
      exact ⟨⟨hclear.sits, fun _ _ => hclear⟩, fun _ _ _ _ => hclear⟩

theorem token_rests (h : m.Sits) : Rests (token m) := by
  have hfailed : ∀ {e : MaskError} {m' : Masker}, m'.Clear → Rests (.error e, m') := fun hm =>
    ⟨hm.sits, fun u hu => (by cases hu), fun _ => hm⟩
  have hbrings := Watch.holds_standing.upcoming sifts_standing h
  rw [token_eq_upcoming]
  rcases hup : upcoming m with ⟨e | v, m₂⟩
  · rw [hup] at hbrings
    rw [Act.bind_of_error hup]
    exact hfailed hbrings.clear
  · rw [hup] at hbrings
    rw [Act.bind_of_ok hup]
    cases v with
    | none => exact ⟨hbrings.abides, fun u hu => (by cases hu), fun _ => hbrings.clear⟩
    | some v =>
      obtain ⟨hpeek, hclear⟩ := mask_rests (t := v) hbrings.clear
      dsimp only at hpeek hclear ⊢
      rcases hm : mask v m₂ with ⟨e | u, m₃⟩
      · rw [hm] at hpeek
        rw [Act.bind_of_error hm]
        exact hfailed (hpeek.clear e rfl)
      · have hbehind := mask_behind (hbrings.found v rfl) hm
        rw [hm] at hpeek hclear
        rw [Act.bind_of_ok hm, Act.update_bind]
        refine ⟨⟨hpeek.sits.lexer, hpeek.sits.peeked⟩, fun w hw => ?_, fun hnot => ?_⟩
        · cases hw
          exact hbehind
        · obtain ⟨hword, hinput⟩ := hnot u rfl
          have hc := hclear u rfl hword hinput
          exact ⟨hc.disciplined, hc.peeked⟩

end Masker

end MaskedTaint
