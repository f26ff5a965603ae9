import MaskedTaint.Lexeme.Lexer

/-! Symbols: what remains of a lexeme once names are masked. Variables, operators
and functions are known by number only, in the order in which they first occur. -/

namespace MaskedTaint

inductive Symbol
  | plain (kind : Kind)
  | var (n : Nat)
  | op (n : Nat)
  | func (n : Nat)
  | call (n : Nat)
  | endParens
  | endBlock
  | endFunction
deriving DecidableEq, Repr, Inhabited

namespace Symbol

def funcName (n : Nat) : String := s!"FUNC{n}"

def name : Symbol → String
  | plain kind => kind.name
  | var n => s!"VAR{n}"
  | op n => s!"OP{n}"
  | func n => funcName n
  | call n => "FUNC_CALL:" ++ funcName n
  | endParens => "END_PARENS"
  | endBlock => "END_CF"
  | endFunction => "END_FUNC"

def isVariable : Symbol → Bool
  | var _ | plain .varWord | plain .variableName => true
  | _ => false

def isSanitizer : Symbol → Bool
  | plain (.sanitizer _) => true
  | _ => false

def endsStatement (s : Symbol) : Bool :=
  s == plain .semicolon || s == endBlock

end Symbol

/-- A masked lexeme; its text is kept beside the symbol. -/
structure Masked where
  symbol : Symbol
  text : String
  line : Int
  pos : Int
deriving DecidableEq, Repr, Inhabited

def Lexeme.masked (t : Lexeme) : Masked := ⟨.plain t.kind, t.text, t.line, t.pos⟩

/-- Names already met, the first one first. A name is masked by its place. -/
abbrev Names := List String

def Names.number (names : Names) (name : String) : Nat × Names :=
  match names.findIdx? (· == name) with
  | some i => (i + 1, names)
  | none => (names.length + 1, names ++ [name])

end MaskedTaint
