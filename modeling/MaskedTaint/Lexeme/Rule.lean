import MaskedTaint.Lexeme.Pattern
import MaskedTaint.Lexeme.Vocabulary

/-! The rules of each mode. At every position the rules of the current mode are
tried in order and the first one that finds something wins, however short. -/

namespace MaskedTaint

/-- What becomes of the mode once a lexeme has been taken. -/
inductive Shift
  | stay
  | enter (m : Mode)
  | push (m : Mode)
  | pop
  | popTwice
deriving DecidableEq, Repr

/-- What a rule makes of the text it has taken. A line that begins with a name
ends a heredoc or nowdoc if the name is its label, and is part of its text
otherwise. -/
inductive Action
  | emit (kind : Kind) (shift : Shift)
  | openHeredoc (label : String)
  | openNowdoc (label : String)
  | closeHeredoc
  | closeNowdoc
deriving DecidableEq, Repr

structure Rule where
  /-- Width of the lexeme ahead, given the character before it; zero for none. -/
  width : Option Char → List Char → Nat
  /-- The action for a lexeme, given the character after it. -/
  action : List Char → Option Char → Action
  /-- Whether the line ends in the lexeme are counted. -/
  countsLines : Bool := false

namespace Rule

def simple (width : List Char → Nat) (kind : Kind) (shift : Shift) : Rule :=
  { width := fun _ => width, action := fun _ _ => .emit kind shift }

def sign (c : Char) (kind : Kind) : Rule :=
  simple (Pattern.char c) kind .stay

def spelled (width : List Char → Nat) (kind : List Char → Kind) (shift : Shift) : Rule :=
  { width := fun _ => width, action := fun text _ => .emit (kind text) shift }

def counting (rule : Rule) : Rule := { rule with countsLines := true }

@[simp] theorem counting_width (rule : Rule) : rule.counting.width = rule.width := rfl

@[simp] theorem counting_action (rule : Rule) : rule.counting.action = rule.action := rfl

def nextIsNameStart (next : Option Char) : Bool :=
  (next.map isNameStart).getD false

def whitespace : Rule := (simple Pattern.blanks .whitespace .stay).counting

def arrow : Rule :=
  { width := fun _ => Pattern.literal ['-', '>']
    action := fun _ next => .emit .arrow (if nextIsNameStart next then .push .property else .stay) }

def leftBracket : Rule := simple (Pattern.char '[') .leftBracket (.push .code)
def rightBracket : Rule := simple (Pattern.char ']') .rightBracket .pop
def leftBrace : Rule := simple (Pattern.char '{') .leftBrace (.push .code)
def rightBrace : Rule := simple (Pattern.char '}') .rightBrace .pop
def docComment : Rule := (simple Pattern.docComment .docComment .stay).counting
def comment : Rule := (simple Pattern.comment .comment .stay).counting
def operator : Rule := simple Pattern.operator .operator .stay

/-- The short tag with an equals sign prints what follows, so it is a sink. -/
def openTag : Rule :=
  (spelled Pattern.openTag (fun text => if text.contains '=' then .sink .xss else .openTag)
    (.enter .code)).counting

def closeTag : Rule := (simple Pattern.closeTag .closeTag (.enter .html)).counting
def html : Rule := (simple Pattern.html .inlineHtml .stay).counting
def importWord : Rule := simple Pattern.importWord .importWord .stay
def word : Rule := spelled Pattern.name Kind.ofWord .stay
def dollarName : Rule := spelled Pattern.dollarName Kind.ofVariable .stay
def decimal : Rule := simple Pattern.decimal .decimal .stay
def integer : Rule := simple Pattern.integer .integer .stay
def constantText : Rule := (simple Pattern.constantText .constantText .stay).counting
def openQuote : Rule := simple (Pattern.char '"') .quote (.push .quoted)
def openBacktick : Rule := simple (Pattern.char (Char.ofNat 96)) .backtick (.push .backticked)
def concat : Rule := simple Pattern.concat .concat .stay

def cast (c : Cast) (names : List String) : Rule :=
  simple (Pattern.cast names) (.cast c) .stay

def quotedName (inside : Mode) : Rule :=
  simple Pattern.dollarName .dollarName (.push inside)

def curlyOpen (shift : Mode → Shift) : Rule :=
  simple Pattern.curlyOpen .curlyOpen (shift .code)

def dollarBrace (shift : Mode → Shift) : Rule :=
  { width := fun _ => Pattern.dollarBrace
    action := fun _ next =>
      .emit .dollarBrace (shift (if nextIsNameStart next then .varName else .code)) }

def encapsed (quote : Char) (shift : Shift) : Rule :=
  (simple (Pattern.encapsed quote) .encapsedText shift).counting

def startHeredoc : Rule :=
  { width := fun _ => Pattern.heredocStart
    action := fun text _ => .openHeredoc (String.ofList (Pattern.startLabel text))
    countsLines := true }

def startNowdoc : Rule :=
  { width := fun _ => Pattern.nowdocStart
    action := fun text _ => .openNowdoc (String.ofList (Pattern.startLabel text))
    countsLines := true }

def heredocText (shift : Shift) : Rule :=
  (simple Pattern.heredocText .encapsedText shift).counting

def nowdocLine : Rule := (simple Pattern.wholeLine .encapsedText .stay).counting
def offsetStart : Rule := simple (Pattern.char '[') .leftBracket (.enter .offset)
def propertyStart : Rule := simple Pattern.arrowToLetter .arrow (.enter .property)
def endHeredoc : Rule := { width := Pattern.label, action := fun _ _ => .closeHeredoc }
def endNowdoc : Rule := { width := Pattern.label, action := fun _ _ => .closeNowdoc }

end Rule

def Mode.rules : Mode → List Rule
  | .html => [.openTag, .html]
  | .code =>
    [.whitespace, .arrow, .leftBracket, .rightBracket, .leftBrace, .rightBrace, .docComment,
      .comment, .operator, .closeTag, .importWord, .word, .dollarName, .decimal, .integer,
      .constantText, .openQuote, .startHeredoc, .startNowdoc, .openBacktick,
      .cast .double ["real", "double", "float"], .cast .bool ["bool", "boolean"],
      .cast .int ["int", "integer"], .cast .binary ["binary"], .cast .object ["object"],
      .cast .string ["string"], .cast .array ["array"], .cast .unset ["unset"],
      .concat, .sign '$' .dollar, .sign '(' .leftParen, .sign '\\' .namespaceSeparator,
      .sign '?' .question, .sign ')' .rightParen, .sign '@' .atSign, .sign ':' .colon,
      .sign ',' .comma, .sign ';' .semicolon]
  | .quoted =>
    [.simple (Pattern.char '"') .quote .pop, .encapsed '"' .stay, .quotedName .quotedVar,
      .curlyOpen .push, .dollarBrace .push]
  | .quotedVar =>
    [.dollarName, .simple (Pattern.char '"') .quote .popTwice, .offsetStart, .propertyStart,
      .encapsed '"' .pop, .curlyOpen .enter, .dollarBrace .enter]
  | .varName => [.leftBracket, .rightBrace, .simple Pattern.name .variableName .stay]
  | .offset =>
    [.rightBracket, .dollarName, .simple Pattern.name .word .stay,
      .simple Pattern.digits .offsetNumber .stay]
  | .property => [.simple Pattern.name .word .pop]
  | .heredoc =>
    [.curlyOpen .push, .dollarBrace .push, .endHeredoc, .heredocText .stay,
      .quotedName .heredocVar]
  | .heredocVar =>
    [.dollarName, .offsetStart, .propertyStart, .curlyOpen .enter, .dollarBrace .enter,
      .heredocText .pop]
  | .nowdoc => [.endNowdoc, .nowdocLine]
  | .backticked =>
    [.curlyOpen .push, .dollarBrace .push, .encapsed (Char.ofNat 96) .stay,
      .quotedName .backtickedVar, .simple (Pattern.char (Char.ofNat 96)) .backtick .pop]
  | .backtickedVar =>
    [.dollarName, .offsetStart, .propertyStart, .curlyOpen .enter, .dollarBrace .enter,
      .simple (Pattern.char (Char.ofNat 96)) .backtick .popTwice,
      .encapsed (Char.ofNat 96) .pop]

def firstMatch (rules : List Rule) (previous : Option Char) (cs : List Char) :
    Option (Rule × Nat) :=
  rules.findSome? fun rule =>
    let width := rule.width previous cs
    if 0 < width then some (rule, width) else none

theorem firstMatch_width_pos {rules : List Rule} {previous : Option Char} {cs : List Char}
    {rule : Rule} {width : Nat} (h : firstMatch rules previous cs = some (rule, width)) :
    0 < width := by
  obtain ⟨r, _, hr⟩ := List.exists_of_findSome?_eq_some h
  by_cases hw : 0 < r.width previous cs
  · simp only [hw, if_true, Option.some.injEq, Prod.mk.injEq] at hr
    exact hr.2 ▸ hw
  · simp [hw] at hr

end MaskedTaint
