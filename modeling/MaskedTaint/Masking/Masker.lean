import MaskedTaint.Act
import MaskedTaint.Masking.Symbol

/-! The masker: turns lexemes into symbols. Layout is dropped, names are numbered,
and the ends of conditions, blocks and functions are marked, which takes some
knowledge of the open blocks and parentheses. -/

namespace MaskedTaint

inductive BlockKind
  /-- A condition stands before the block. -/
  | branch
  | alternative
  /-- A condition stands behind the block. -/
  | doBlock
  | function (number : Option Nat)
deriving DecidableEq, Repr, Inhabited

structure CodeBlock where
  /-- The block is a single statement without braces. -/
  oneLiner : Bool
  kind : BlockKind
deriving DecidableEq, Repr, Inhabited

inductive MaskError
  | lex (e : LexError)
  | noBlock
  | notFunction
deriving DecidableEq, Repr

def MaskError.message : MaskError → String
  | lex e => e.message
  | noBlock => "list index out of range"
  | notFunction => "list assignment index out of range"

structure Masker where
  lexer : Lexer := {}
  /-- The last symbol that was delivered, or the last opening tag. -/
  last : Option Masked := none
  /-- A lexeme that was read ahead. -/
  peeked : Option Lexeme := none
  vars : Names := []
  ops : Names := []
  funcs : Names := []
  /-- Parentheses whose end will be marked. -/
  parens : Nat := 0
  /-- Plain parentheses opened inside those. -/
  innerParens : Nat := 0
  /-- Open blocks, the innermost first. -/
  blocks : List CodeBlock := []
  /-- A block has been announced; the next symbol tells whether it has braces. -/
  blockAhead : Bool := false
  inDeclaration : Bool := false
  inCall : Bool := false
deriving Inhabited

abbrev Masking := Act Masker MaskError

namespace Masker

def load (m : Masker) (text : List Char) : Masker := { m with lexer := m.lexer.load text }

def loadFile (m : Masker) (text : List Char) : Masker :=
  { m with lexer := { m.lexer.load text with line := 1 } }

def onLexer {α : Type} (x : Lexer → Except LexError α × Lexer) : Masking α :=
  Act.onPart Masker.lexer (fun l m => { m with lexer := l }) .lex x

def skipTo (wanted : Kind → Bool) : Masking (Option Lexeme) := do
  let m ← Act.state
  match m.peeked with
  | some t =>
    Act.update fun m => { m with peeked := none }
    if wanted t.kind then return some t else onLexer (Lexer.find wanted)
  | none => onLexer (Lexer.find wanted)

def read : Masking (Option Lexeme) :=
  skipTo fun _ => true

def skipLayout : Masking (Option Lexeme) :=
  skipTo fun kind => !kind.isLayout

def peek : Masking (Option Lexeme) := do
  let m ← Act.state
  match m.peeked with
  | some t => return some t
  | none =>
    let t ← skipLayout
    Act.update fun m => { m with peeked := t }
    return t

/-- What becomes of a lexeme on the way to the next symbol. -/
inductive Sifted
  | keep (t : Masked)
  | drop (last : Option Masked)

def needsNoEnd : Symbol → Bool
  | .plain .openTag | .plain .semicolon | .plain .colon | .plain .leftBrace
  | .plain .rightBrace => true
  | _ => false

/-- Layout is dropped, but a closing tag ends an unfinished statement, and so does
an opening tag right after a statement end. -/
def sift (last : Option Masked) (t : Lexeme) : Sifted :=
  match t.kind with
  | .openTag =>
    if last.map Masked.symbol = some (.plain .semicolon) then
      .keep { t.masked with symbol := .plain .semicolon, text := ";" }
    else .drop (some t.masked)
  | .closeTag =>
    if (last.map fun t => needsNoEnd t.symbol).getD false then .drop last
    else .keep { t.masked with symbol := .plain .semicolon }
  | kind => if kind.isLayout then .drop last else .keep t.masked

/-- Reads up to the next lexeme that is kept; also gives the last symbol seen. -/
def siftLexer (last : Option Masked) (l : Lexer) :
    Except LexError (Option Masked) × Option Masked × Lexer :=
  match _h : l.next with
  | .lexeme t l' =>
    match sift last t with
    | .keep t => (.ok (some t), last, l')
    | .drop last => siftLexer last l'
  | .finished l' => (.ok none, last, l')
  | .failed e l' => (.error e, last, l')
termination_by l.rest.length
decreasing_by exact Lexer.next_rest_lt _h

def siftOn : Masking (Option Masked) := fun m =>
  match siftLexer m.last m.lexer with
  | (.ok t, last, l) => (.ok t, { m with last := last, lexer := l })
  | (.error e, last, l) => (.error (.lex e), { m with last := last, lexer := l })

def significant : Masking (Option Masked) := do
  let m ← Act.state
  match m.peeked with
  | some t =>
    Act.update fun m => { m with peeked := none }
    match sift m.last t with
    | .keep t => return some t
    | .drop last =>
      Act.update fun m => { m with last := last }
      siftOn
  | none => siftOn

/-- A block announced before `t` is a single statement unless `t` is its brace,
which is then passed over. -/
def settleBlock (t : Option Masked) : Masking (Option Masked) := do
  let m ← Act.state
  if m.blockAhead then
    let brace := (t.map fun t => t.symbol == .plain .leftBrace).getD true
    if brace then
      let t ← skipLayout
      Act.update fun m => { m with blockAhead := false }
      return t.map Lexeme.masked
    else
      match m.blocks with
      | [] => Act.fail .noBlock
      | b :: bs =>
        Act.update fun m =>
          { m with blocks := { b with oneLiner := true } :: bs, blockAhead := false }
        return t
  else return t

def openBranch : Masking Unit := do
  Act.update fun m =>
    { m with blocks := ⟨false, .branch⟩ :: m.blocks, parens := m.parens + 1 }
  let _ ← skipTo (· == .leftParen)

def openBlock (kind : BlockKind) : Masking Unit :=
  Act.update fun m => { m with blocks := ⟨false, kind⟩ :: m.blocks, blockAhead := true }

/-- Leaves the innermost block; the condition behind a do block is read as one. -/
def leaveBlock (b : CodeBlock) : Masking Unit := do
  if b.kind == .doBlock then
    Act.update fun m => { m with parens := m.parens + 1 }
    let _ ← skipTo (· == .whileWord)
  Act.update fun m => { m with blocks := m.blocks.tail }

def announcesBlock : List CodeBlock → Bool
  | b :: _ =>
    match b.kind with
    | .branch | .alternative => true
    | .doBlock | .function _ => false
  | [] => false

def closeParen (m : Masker) (t : Masked) : Masked × Masker :=
  if m.parens = 0 then (t, m)
  else if m.innerParens = 0 then
    let m := { m with parens := m.parens - 1 }
    ({ t with symbol := .endParens },
      if m.inCall then { m with inCall := false }
      else if announcesBlock m.blocks then { m with blockAhead := true }
      else m)
  else (t, { m with innerParens := m.innerParens - 1 })

def endStatement (t : Masked) : Masking Masked := do
  let m ← Act.state
  match m.blocks with
  | b :: _ =>
    if b.oneLiner then
      leaveBlock b
      return { t with symbol := .endBlock }
    else return t
  | [] => return t

def closeBrace (t : Masked) : Masking Masked := do
  let m ← Act.state
  match m.blocks with
  | b :: bs =>
    match b.kind with
    | .function _ =>
      Act.update fun m => { m with blocks := bs }
      return { t with symbol := .endFunction }
    | _ =>
      if b.oneLiner then
        Act.update fun m => { m with blocks := bs }
        return t
      else
        leaveBlock b
        return { t with symbol := .endBlock }
  | [] => return t

def declare (number : Nat) (t : Masked) : Masking Masked := do
  let m ← Act.state
  match m.blocks with
  | [] => Act.fail .noBlock
  | b :: bs =>
    match b.kind with
    | .function _ =>
      Act.update fun m =>
        { m with blocks := { b with kind := .function (some number) } :: bs }
      let _ ← skipTo (· == .leftParen)
      Act.update fun m => { m with parens := m.parens + 1, inDeclaration := false }
      return { t with symbol := .func number }
    | _ => Act.fail .notFunction

def callOrWord (number : Nat) (t : Masked) : Masking Masked := do
  let next ← peek
  if next.map Lexeme.kind = some .leftParen then
    Act.update fun m => { m with peeked := none, parens := m.parens + 1, inCall := true }
    return { t with symbol := .call number }
  else return t

def maskWord (t : Masked) : Masking Masked := do
  let m ← Act.state
  let (number, funcs) := m.funcs.number t.text
  Act.update fun m => { m with funcs := funcs }
  if m.inDeclaration then declare number t else callOrWord number t

def maskVariable (m : Masker) (t : Masked) : Masked × Masker :=
  let (number, vars) := m.vars.number t.text
  ({ t with symbol := .var number }, { m with vars := vars })

def maskOperator (m : Masker) (t : Masked) : Masked × Masker :=
  if t.text = "=" then ({ t with symbol := .op 0 }, m)
  else
    let (number, ops) := m.ops.number t.text
    ({ t with symbol := .op number }, { m with ops := ops })

def skipOffset : Masking Unit := do
  let next ← peek
  if next.map Lexeme.kind = some .leftBracket then
    let _ ← skipTo (· == .rightBracket)

def pureStep (f : Masker → Masked × Masker) : Masking Masked := fun m => (.ok (f m).1, (f m).2)

def mask (t : Masked) : Masking Masked :=
  match t.symbol with
  | .plain .dollarName => pureStep fun m => m.maskVariable t
  | .plain .operator => pureStep fun m => m.maskOperator t
  | .plain .ifWord | .plain .elseIfWord | .plain .whileWord | .plain .forWord
  | .plain .forEachWord | .plain .switchWord => do
    openBranch
    return t
  | .plain .elseWord => do
    openBlock .alternative
    return t
  | .plain .doWord => do
    openBlock .doBlock
    return t
  | .plain .leftParen => do
    Act.update fun m =>
      if m.parens = 0 then m else { m with innerParens := m.innerParens + 1 }
    return t
  | .plain .rightParen => pureStep fun m => m.closeParen t
  | .plain .semicolon => endStatement t
  | .plain .rightBrace => closeBrace t
  | .plain .functionWord => do
    Act.update fun m =>
      { m with blocks := ⟨false, .function none⟩ :: m.blocks, inDeclaration := true }
    return t
  | .plain .word => maskWord t
  | .plain .input => do
    skipOffset
    return t
  | _ => return t

def token : Masking (Option Masked) := do
  let t ← significant
  let t ← settleBlock t
  match t with
  | none => return none
  | some t =>
    let t ← mask t
    Act.update fun m => { m with last := some t }
    return some t

end Masker

end MaskedTaint
