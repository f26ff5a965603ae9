import MaskedTaint.Lexeme.Rule

/-! The lexer: a text with a position in it, the current mode and the modes to
come back to. Every lexeme shortens the text ahead, so the loops below end. -/

namespace MaskedTaint

structure Lexeme where
  kind : Kind
  text : String
  /-- Line on which the lexeme starts. -/
  line : Int
  /-- Number of characters before the lexeme. -/
  pos : Int
deriving DecidableEq, Repr, Inhabited

inductive LexError
  | illegalCharacter (line : Int) (rest : String)
  | emptyStack
  | noHeredocLabel
  | noNowdocLabel
  | noInput
deriving DecidableEq, Repr

def LexError.message : LexError → String
  | illegalCharacter line _ => s!"illegal character (line {line})"
  | emptyStack => "pop from empty list"
  | noHeredocLabel => "'Lexer' object has no attribute 'heredoc_label'"
  | noNowdocLabel => "'Lexer' object has no attribute 'nowdoc_label'"
  | noInput => "No input string given with input()"

structure Lexer where
  mode : Mode := .html
  /-- Modes to come back to, the next one first. -/
  stack : List Mode := []
  line : Int := 1
  pos : Int := 0
  /-- Text already read, the last character first. -/
  before : List Char := []
  rest : List Char := []
  /-- Whether a text has been given at all. -/
  loaded : Bool := false
  heredoc : Option String := none
  nowdoc : Option String := none
deriving Inhabited

namespace Lexer

def load (l : Lexer) (text : List Char) : Lexer :=
  { l with before := [], rest := text, pos := 0, loaded := true }

def seek (l : Lexer) (pos : Int) : Lexer :=
  let text := l.before.reverse ++ l.rest
  { l with before := (text.take pos.toNat).reverse, rest := text.drop pos.toNat, pos := pos }

def pop (l : Lexer) : Except LexError Unit × Lexer :=
  match l.stack with
  | [] => (.error .emptyStack, l)
  | m :: stack => (.ok (), { l with mode := m, stack := stack })

def shift (l : Lexer) : Shift → Except LexError Unit × Lexer
  | .stay => (.ok (), l)
  | .enter m => (.ok (), { l with mode := m })
  | .push m => (.ok (), { l with mode := m, stack := l.mode :: l.stack })
  | .pop => l.pop
  | .popTwice =>
    match l.pop with
    | (.ok _, l') => l'.pop
    | failed => failed

/-- Goes back to the mode before a heredoc or nowdoc if `text` is its label. -/
def close (l cleared : Lexer) (label : Option String) (missing : LexError) (text : String)
    (kind : Kind) : Except LexError Kind × Lexer :=
  match label with
  | none => (.error missing, l)
  | some label =>
    if text = label then (cleared.pop.1.map fun _ => kind, cleared.pop.2)
    else (.ok .encapsedText, l)

/-- Carries out an action for the text just taken and tells the kind of the lexeme. -/
def act (l : Lexer) (text : String) : Action → Except LexError Kind × Lexer
  | .emit kind shift => ((l.shift shift).1.map fun _ => kind, (l.shift shift).2)
  | .openHeredoc label =>
    (.ok .startHeredoc, { (l.shift (.push .heredoc)).2 with heredoc := some label })
  | .openNowdoc label =>
    (.ok .startNowdoc, { (l.shift (.push .nowdoc)).2 with nowdoc := some label })
  | .closeHeredoc =>
    l.close { l with heredoc := none } l.heredoc .noHeredocLabel text .endHeredoc
  | .closeNowdoc =>
    l.close { l with nowdoc := none } l.nowdoc .noNowdocLabel text .endNowdoc

def advance (l : Lexer) (width : Nat) : Lexer :=
  let text := l.rest.take width
  { l with
    before := text.reverse ++ l.before
    rest := l.rest.drop width
    line := l.line + text.count '\n'
    pos := l.pos + text.length }

/-- Moves over a lexeme; whether its line ends are counted is up to its rule. -/
def moveOver (l : Lexer) (rule : Rule) (width : Nat) : Lexer :=
  if rule.countsLines then l.advance width else { l.advance width with line := l.line }

variable (l : Lexer)

theorem moveOver_rest (rule : Rule) (width : Nat) :
    (l.moveOver rule width).rest = l.rest.drop width := by
  unfold moveOver
  split <;> rfl

/-- What the lexer finds at its position. -/
inductive Step
  | lexeme (t : Lexeme) (l : Lexer)
  | finished (l : Lexer)
  | failed (e : LexError) (l : Lexer)

def next (l : Lexer) : Step :=
  if !l.loaded then .failed .noInput { l with pos := l.pos + 1 }
  else if l.rest.isEmpty then .finished { l with pos := l.pos + 1 }
  else
    match firstMatch l.mode.rules l.before.head? l.rest with
    | none => .failed (.illegalCharacter l.line (String.ofList l.rest)) l
    | some (rule, width) =>
      let text := l.rest.take width
      let l' := l.moveOver rule width
      match l'.act (String.ofList text) (rule.action text l'.rest.head?) with
      | (.ok kind, l'') => .lexeme ⟨kind, String.ofList text, l.line, l.pos⟩ l''
      | (.error e, l'') => .failed e l''

theorem pop_rest : l.pop.2.rest = l.rest := by
  unfold pop
  split <;> rfl

theorem shift_rest (s : Shift) : (l.shift s).2.rest = l.rest := by
  cases s with
  | stay => rfl
  | enter m => rfl
  | push m => rfl
  | pop => exact pop_rest l
  | popTwice =>
    have h := pop_rest l
    simp only [shift]
    split
    · rename_i l' heq
      rw [heq] at h
      rw [pop_rest, h]
    · exact h

theorem close_rest (l cleared : Lexer) (label : Option String) (missing : LexError)
    (text : String) (kind : Kind) (h : cleared.rest = l.rest) :
    (l.close cleared label missing text kind).2.rest = l.rest := by
  unfold close
  split
  · rfl
  · split
    · exact (pop_rest cleared).trans h
    · rfl

theorem act_rest (text : String) (a : Action) : (l.act text a).2.rest = l.rest := by
  cases a with
  | emit kind s => exact shift_rest l s
  | openHeredoc label => rfl
  | openNowdoc label => rfl
  | closeHeredoc => exact close_rest _ _ _ _ _ _ rfl
  | closeNowdoc => exact close_rest _ _ _ _ _ _ rfl

/-- A lexeme uses up text, and what is left never grows. -/
def Step.Leaves (text : List Char) : Step → Prop
  | .lexeme _ l => l.rest.length < text.length
  | .finished l => l.rest = text
  | .failed _ l => l.rest.length ≤ text.length

theorem next_leaves {l : Lexer} {step : Step} (h : l.next = step) : step.Leaves l.rest := by
  subst h
  unfold next
  split
  · exact Nat.le_refl _
  split
  · rfl
  rename_i hempty
  have hlen : 0 < l.rest.length := List.length_pos_iff.mpr (by simpa using hempty)
  split
  · exact Nat.le_refl _
  · rename_i rule width hm
    have hw := firstMatch_width_pos hm
    have hr := act_rest (l.moveOver rule width) (String.ofList (l.rest.take width))
      (rule.action (l.rest.take width) (l.moveOver rule width).rest.head?)
    dsimp only
    split
    all_goals
      rename_i hact
      rw [hact, moveOver_rest] at hr
      have hd : _ = l.rest.drop width := hr
      rw [Step.Leaves, hd, List.length_drop]
      omega

theorem next_rest_lt {l l' : Lexer} {t : Lexeme} (h : l.next = .lexeme t l') :
    l'.rest.length < l.rest.length := next_leaves h

theorem next_finished_rest {l l' : Lexer} (h : l.next = .finished l') : l'.rest = l.rest :=
  next_leaves h

theorem next_failed_rest_le {l l' : Lexer} {e : LexError} (h : l.next = .failed e l') :
    l'.rest.length ≤ l.rest.length := next_leaves h

def find (wanted : Kind → Bool) (l : Lexer) : Except LexError (Option Lexeme) × Lexer :=
  match _h : l.next with
  | .lexeme t l' => if wanted t.kind then (.ok (some t), l') else find wanted l'
  | .finished l' => (.ok none, l')
  | .failed e l' => (.error e, l')
termination_by l.rest.length
decreasing_by exact next_rest_lt _h

theorem find_rest_le (wanted : Kind → Bool) (l : Lexer) :
    (l.find wanted).2.rest.length ≤ l.rest.length := by
  fun_induction find wanted l with
  | case1 l t l' h _ => exact Nat.le_of_lt (next_rest_lt h)
  | case2 l t l' h _ ih => exact Nat.le_trans ih (Nat.le_of_lt (next_rest_lt h))
  | case3 l l' h => exact Nat.le_of_eq (by rw [next_finished_rest h])
  | case4 l e l' h => exact next_failed_rest_le h

theorem find_rest_lt (wanted : Kind → Bool) (l : Lexer) (t : Lexeme)
    (h : (l.find wanted).1 = .ok (some t)) : (l.find wanted).2.rest.length < l.rest.length := by
  fun_induction find wanted l with
  | case1 l t l' hn _ => exact next_rest_lt hn
  | case2 l t l' hn _ ih => exact Nat.lt_trans (ih h) (next_rest_lt hn)
  | case3 l l' hn => cases h
  | case4 l e l' hn => cases h

/-- All lexemes up to the end or to the first failure, each with the mode after it. -/
def scan (l : Lexer) : List (Lexeme × Mode) × Option LexError × Lexer :=
  match _h : l.next with
  | .lexeme t l' =>
    let (ts, e, last) := scan l'
    ((t, l'.mode) :: ts, e, last)
  | .finished l' => ([], none, l')
  | .failed e l' => ([], some e, l')
termination_by l.rest.length
decreasing_by exact next_rest_lt _h

end Lexer

end MaskedTaint
