import MaskedTaint.Proofs.Lexeme.Lines
import MaskedTaint.Proofs.Lexeme.Pieces

/-! Reading code piece by piece. The lexer stands at a place if only blanks are left before
it. -/

namespace MaskedTaint

structure Position where
  line : Int
  pos : Int
deriving DecidableEq

def Position.after (p : Position) (cs : List Char) : Position :=
  ⟨p.line + cs.count '\n', p.pos + cs.length⟩

@[simp] theorem Position.after_nil (p : Position) : p.after [] = p := by simp [Position.after]

theorem Position.after_append (p : Position) (cs ds : List Char) :
    p.after (cs ++ ds) = (p.after cs).after ds := by
  simp [Position.after, Int.add_assoc]

def Blank (cs : List Char) : Prop := ∀ c ∈ cs, Pattern.isBlank c = true

instance (cs : List Char) : Decidable (Blank cs) :=
  decidable_of_iff (cs.all Pattern.isBlank = true) List.all_eq_true

theorem Blank.append {cs ds : List Char} (hcs : Blank cs) (hds : Blank ds) : Blank (cs ++ ds) := by
  intro c hc
  rcases List.mem_append.mp hc with hc | hc
  · exact hcs c hc
  · exact hds c hc

/-- The stacks of modes before and behind a lexeme of code that leads to code again. -/
inductive Shift.Moves : Shift → List Mode → List Mode → Prop
  | stay (stack : List Mode) : Moves .stay stack stack
  | push (stack : List Mode) : Moves (.push .code) stack (.code :: stack)
  | pop (stack : List Mode) : Moves .pop (.code :: stack) stack

namespace Lexer

structure At (l : Lexer) (stack : List Mode) (text : List Char) (place : Position) : Prop where
  mode : l.mode = .code
  loaded : l.loaded = true
  stack : l.stack = stack
  gap : ∃ gap, Blank gap ∧ l.rest = gap ++ text ∧ Position.after ⟨l.line, l.pos⟩ gap = place

variable {l : Lexer} {stack stack' : List Mode} {piece more : List Char} {place : Position}
  {kind : Kind} {move : Shift}

theorem At.skip {gap text : List Char} (h : l.At stack (gap ++ text) place) (hgap : Blank gap) :
    l.At stack text (place.after gap) := by
  obtain ⟨hmode, hloaded, hstack, gap', hgap', hrest, hplace⟩ := h
  refine ⟨hmode, hloaded, hstack, gap' ++ gap, hgap'.append hgap, by simp [hrest], ?_⟩
  rw [Position.after_append, hplace]

theorem next_of_lexes (hmode : l.mode = .code) (hloaded : l.loaded = true)
    (hrest : l.rest = piece ++ more) (hpiece : piece ≠ []) (h : Lexes piece more kind move) :
    l.next = match (l.advance piece.length).shift move with
      | (.ok _, l') => .lexeme ⟨kind, String.ofList piece, l.line, l.pos⟩ l'
      | (.error e, l') => .failed e l' := by
  obtain ⟨rule, hmatch, haction⟩ := h l.before.head?
  have htake : l.rest.take piece.length = piece := by simp [hrest]
  have hdrop : l.rest.drop piece.length = more := by simp [hrest]
  rw [← hrest, ← hmode] at hmatch
  rw [next_of_match hloaded (by simp [hrest, hpiece]) hmatch, htake, hdrop, haction, act]
  cases hs : (l.advance piece.length).shift move with
  | mk r l' => cases r <;> rfl

theorem exists_next_of_lexes (hmode : l.mode = .code) (hloaded : l.loaded = true)
    (hstack : l.stack = stack) (hrest : l.rest = piece ++ more) (hpiece : piece ≠ [])
    (h : Lexes piece more kind move) (hmove : move.Moves stack stack') :
    ∃ l', l.next = .lexeme ⟨kind, String.ofList piece, l.line, l.pos⟩ l' ∧ l'.rest = more ∧
      l'.At stack' more (Position.after ⟨l.line, l.pos⟩ piece) := by
  have hnext := next_of_lexes hmode hloaded hrest hpiece h
  have hmore : (l.advance piece.length).rest = more := by simp [advance, hrest]
  have hat : (l.advance piece.length).At stack more (Position.after ⟨l.line, l.pos⟩ piece) := by
    refine ⟨hmode, hloaded, hstack, [], by simp [Blank], hmore, ?_⟩
    simp [advance, hrest, Position.after]
  cases hmove with
  | stay => exact ⟨_, hnext, hmore, hat⟩
  | push => exact ⟨_, hnext, hmore, ⟨rfl, hat.loaded, by simp [hat.mode, hat.stack], hat.gap⟩⟩
  | pop =>
    have hpop : (l.advance piece.length).pop =
        (.ok (), { l.advance piece.length with mode := .code, stack := stack' }) := by
      simp [pop, hat.stack]
    simp only [shift, hpop] at hnext
    exact ⟨_, hnext, hmore, ⟨rfl, hat.loaded, rfl, hat.gap⟩⟩

theorem At.settle (h : l.At stack piece place) (hpiece : ∀ c ∈ piece.head?, Pattern.isBlank c = false) :
    ∃ l₀, l₀.At stack piece place ∧ l₀.rest = piece ∧ Position.mk l₀.line l₀.pos = place ∧
      (l = l₀ ∨ ∃ t, l.next = .lexeme t l₀ ∧ t.kind = .whitespace) := by
  obtain ⟨hmode, hloaded, hstack, gap, hgap, hrest, hplace⟩ := h
  by_cases hnil : gap = []
  · subst hnil
    rw [Position.after_nil] at hplace
    refine ⟨l, ⟨hmode, hloaded, hstack, [], hgap, hrest, ?_⟩, hrest, hplace, .inl rfl⟩
    rw [Position.after_nil, hplace]
  · obtain ⟨l₀, hnext, hrest₀, hat⟩ := exists_next_of_lexes hmode hloaded hstack hrest hnil
      (.blanks hgap hnil hpiece) (.stay stack)
    rw [hplace] at hat
    obtain ⟨gap', hgap', hrest', hplace'⟩ := hat.gap
    obtain rfl : gap' = [] := by simpa [hrest₀] using hrest'
    exact ⟨l₀, hat, hrest₀, by rwa [Position.after_nil] at hplace', .inr ⟨_, hnext, rfl⟩⟩

end Lexer

end MaskedTaint
