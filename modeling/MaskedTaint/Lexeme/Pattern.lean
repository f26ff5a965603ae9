import MaskedTaint.Lexeme.Kind
import MaskedTaint.Text.Word

/-! Widths of lexemes. Each function here measures how much of the text ahead
belongs to one lexeme of a kind; zero means that none stands there. -/

namespace MaskedTaint.Pattern

def isBlank (c : Char) : Bool :=
  c == ' ' || c == '\t' || c == '\r' || c == '\n'

def isSpaceOrTab (c : Char) : Bool :=
  c == ' ' || c == '\t'

def run (p : Char → Bool) (cs : List Char) : Nat :=
  (cs.takeWhile p).length

def behind (n : Nat) (part : Nat) : Nat :=
  if part = 0 then 0 else n + part

def blanks (cs : List Char) : Nat :=
  run isBlank cs

def char (c : Char) : List Char → Nat
  | d :: _ => if d = c then 1 else 0
  | [] => 0

def literal (text : List Char) (cs : List Char) : Nat :=
  if text.isPrefixOf cs then text.length else 0

def name : List Char → Nat
  | c :: r => if isNameStart c then 1 + run isWordChar r else 0
  | [] => 0

def dollarName : List Char → Nat
  | '$' :: r => behind 1 (name r)
  | _ => 0

def digits (cs : List Char) : Nat :=
  run isDecimal cs

def throughCommentEnd : List Char → Nat
  | '*' :: '/' :: _ => 2
  | _ :: r => behind 1 (throughCommentEnd r)
  | [] => 0

def docComment : List Char → Nat
  | '/' :: '*' :: '*' :: r => behind 3 (throughCommentEnd r)
  | _ => 0

/-- The rest of a line comment: it stops before a closing tag and takes the end
of the line with it. -/
def lineRest : List Char → Nat
  | [] => 0
  | c :: r =>
    if c = '\n' then 1
    else if (c = '?' || c = '%') && r.head? = some '>' then 0
    else 1 + lineRest r

def comment : List Char → Nat
  | '/' :: '*' :: r => behind 2 (throughCommentEnd r)
  | '/' :: '/' :: r => 2 + lineRest r
  | '#' :: r => 1 + lineRest r
  | _ => 0

/-- Operators in the order in which they are tried: a shorter one that stands
earlier wins over a longer one that stands later. -/
def operators : List String :=
  ["===", "!==", "<<=", ">>=", "<=", ">=", "==", "!=", "<>", "*=", "/=", "%=", "+=", "-=", "&=",
    "|=", "^=", ".=", "++", "--", "=>", "::", "=", "+", "-", "*", "/", "%", "&", "|", "~", "^",
    "<<", ">>", "&&", "||", "!", "<", ">"]

def operator (cs : List Char) : Nat :=
  match operators.find? (fun op => op.toList.isPrefixOf cs) with
  | some op => op.length
  | none => 0

def openTag : List Char → Nat
  | '<' :: c :: r =>
    if c = '?' || c = '%' then
      match r with
      | '=' :: _ => 3
      | p :: h :: q :: s =>
        if (p = 'p' || p = 'P') && (h = 'h' || h = 'H') && (q = 'p' || q = 'P') then
          5 + (if (s.head?.map isBlank).getD false then 1 else 0)
        else 2
      | _ => 2
    else 0
  | _ => 0

def closeTag : List Char → Nat
  | c :: '>' :: r =>
    if c = '?' || c = '%' then
      match r with
      | '\r' :: '\n' :: _ => 4
      | '\r' :: _ => 3
      | '\n' :: _ => 3
      | _ => 2
    else 0
  | _ => 0

def html : List Char → Nat
  | [] => 0
  | c :: r =>
    if c = '<' && (r.head? = some '?' || r.head? = some '%') then 0
    else 1 + html r

def importWords : List String :=
  ["include", "require", "include_once", "require_once"]

def importWord (cs : List Char) : Nat :=
  let word := cs.takeWhile isWordChar
  if importWords.contains (String.ofList word) then word.length else 0

def exponent : List Char → Nat
  | e :: r =>
    if e = 'e' || e = 'E' then
      match r with
      | s :: t => if s = '+' || s = '-' then behind 2 (digits t) else behind 1 (digits r)
      | [] => 0
    else 0
  | [] => 0

def decimal (cs : List Char) : Nat :=
  let whole := digits cs
  match cs.drop whole with
  | '.' :: r =>
    let fraction := digits r
    if whole + fraction = 0 then 0
    else whole + 1 + fraction + exponent (r.drop fraction)
  | r => if whole = 0 then 0 else behind whole (exponent r)

def isBinaryDigit (c : Char) : Bool :=
  c == '0' || c == '1'

def isHexDigit (c : Char) : Bool :=
  isAsciiDigit c || ('a' ≤ c && c ≤ 'f') || ('A' ≤ c && c ≤ 'F')

def integer (cs : List Char) : Nat :=
  match cs with
  | '0' :: 'b' :: r => if run isBinaryDigit r = 0 then digits cs else 2 + run isBinaryDigit r
  | '0' :: 'x' :: r => if run isHexDigit r = 0 then digits cs else 2 + run isHexDigit r
  | _ => digits cs

def constantRest : List Char → Nat
  | [] => 0
  | '\'' :: _ => 1
  | ['\\'] => 0
  | '\\' :: _ :: r => behind 2 (constantRest r)
  | _ :: r => behind 1 (constantRest r)

def constantText : List Char → Nat
  | '\'' :: r => behind 1 (constantRest r)
  | _ => 0

def startsVariable : List Char → Bool
  | c :: _ => isNameStart c || c == '{'
  | [] => false

def startsDollar : List Char → Bool
  | c :: _ => c == '$'
  | [] => false

def encapsed (quote : Char) : List Char → Nat
  | [] => 0
  | ['\\'] => 0
  | '\\' :: _ :: r => 2 + encapsed quote r
  | c :: r =>
    if c = quote then 0
    else if c = '$' && startsVariable r then 0
    else if c = '{' && startsDollar r then 0
    else 1 + encapsed quote r

def heredocRun : List Char → Nat
  | [] => 0
  | ['\\'] => 0
  | '\\' :: d :: r => if d = '\n' then 0 else 2 + heredocRun r
  | c :: r =>
    if c = '\n' then 0
    else if c = '$' && startsVariable r then 0
    else if c = '{' && startsDollar r then 0
    else 1 + heredocRun r

/-- Text in a heredoc: a run with the end of its line, or a bare end of line. -/
def heredocText (cs : List Char) : Nat :=
  let width := heredocRun cs
  if width = 0 then
    match cs with
    | '\n' :: _ => 1
    | '\\' :: '\n' :: _ => 2
    | _ => 0
  else width + char '\n' (cs.drop width)

def wholeLine (cs : List Char) : Nat :=
  let width := run (· != '\n') cs
  behind width (char '\n' (cs.drop width))

def lineEnd : List Char → Nat
  | '\n' :: _ => 1
  | '\r' :: '\n' :: _ => 2
  | _ => 0

/-- Three angle brackets with a name behind them, alone on the rest of the line. -/
def heredocStart : List Char → Nat
  | '<' :: '<' :: '<' :: r =>
    let left := run isSpaceOrTab r
    let word := name (r.drop left)
    behind (3 + left) (behind word (if word = 0 then 0 else lineEnd (r.drop (left + word))))
  | _ => 0

def nowdocStart : List Char → Nat
  | '<' :: '<' :: '<' :: r =>
    let left := run isSpaceOrTab r
    match r.drop left with
    | '\'' :: s =>
      let word := name s
      match s.drop word with
      | '\'' :: tail => behind (3 + left) (behind (word + 2) (if word = 0 then 0 else lineEnd tail))
      | _ => 0
    | _ => 0
  | _ => 0

def startLabel (text : List Char) : List Char :=
  (text.dropWhile fun c => !isNameStart c).takeWhile isWordChar

def label (previous : Option Char) (cs : List Char) : Nat :=
  if previous = some '\n' then name cs else 0

def curlyOpen : List Char → Nat
  | '{' :: '$' :: _ => 1
  | _ => 0

def dollarBrace : List Char → Nat
  | '$' :: '{' :: _ => 2
  | _ => 0

def concat : List Char → Nat
  | '.' :: c :: _ => if isDecimal c || c = '=' then 0 else 1
  | ['.'] => 1
  | _ => 0

def arrowToLetter : List Char → Nat
  | '-' :: '>' :: c :: _ => if isAsciiLetter c then 2 else 0
  | _ => 0

def lowerAscii (c : Char) : Char :=
  if 'A' ≤ c && c ≤ 'Z' then Char.ofNat (c.toNat + 32) else c

/-- One of the given type names in parentheses, in any case and with blanks around it. -/
def cast (names : List String) : List Char → Nat
  | '(' :: r =>
    let left := run isSpaceOrTab r
    let word := (r.drop left).takeWhile isAsciiLetter
    let tail := r.drop (left + word.length)
    let right := run isSpaceOrTab tail
    if names.contains (String.ofList (word.map lowerAscii)) then
      behind (1 + left + word.length + right) (char ')' (tail.drop right))
    else 0
  | _ => 0

end MaskedTaint.Pattern
