/-! JSON values with whole numbers, and how they are written. An object keeps its
fields in order. -/

namespace MaskedTaint

inductive Json
  | null
  | bool (b : Bool)
  | number (n : Int)
  | text (s : String)
  | list (items : List Json)
  | object (fields : List (String × Json))
deriving Repr, Inhabited

namespace Json

def hexDigit (n : Nat) : Char := Char.ofNat (if n < 10 then 48 + n else 87 + n)

def hex4 (n : Nat) : List Char :=
  [hexDigit (n / 4096 % 16), hexDigit (n / 256 % 16), hexDigit (n / 16 % 16), hexDigit (n % 16)]

def unitEscape (n : Nat) : List Char := '\\' :: 'u' :: hex4 n

/-- A character inside a quoted text. Only the range from blank to tilde stands for
itself; a character beyond the first plane is written as two escapes. -/
def escape (c : Char) : List Char :=
  if c = '"' then ['\\', '"']
  else if c = '\\' then ['\\', '\\']
  else if c = '\n' then ['\\', 'n']
  else if c = '\r' then ['\\', 'r']
  else if c = '\t' then ['\\', 't']
  else if c = '\x0c' then ['\\', 'f']
  else if c = '\x08' then ['\\', 'b']
  else if 32 ≤ c.toNat ∧ c.toNat ≤ 126 then [c]
  else if c.toNat < 0x10000 then unitEscape c.toNat
  else
    unitEscape (0xd800 + (c.toNat - 0x10000) / 0x400) ++
      unitEscape (0xdc00 + (c.toNat - 0x10000) % 0x400)

def quote (s : String) : String := "\"" ++ String.ofList (s.toList.flatMap escape) ++ "\""

/-- What stands between the parts of a list or object at some depth. -/
structure Layout where
  opening : Nat → String
  between : Nat → String
  closing : Nat → String

def Layout.line : Layout := ⟨fun _ => "", fun _ => ", ", fun _ => ""⟩

def Layout.indented (width : Nat) : Layout :=
  let newline := fun depth => "\n" ++ String.ofList (List.replicate (width * depth) ' ')
  ⟨fun depth => newline (depth + 1), fun depth => "," ++ newline (depth + 1), newline⟩

def enclose (l : Layout) (depth : Nat) (left right : String) : List String → String
  | [] => left ++ right
  | parts => left ++ l.opening depth ++ (l.between depth).intercalate parts ++ l.closing depth ++ right

mutual

def write (l : Layout) (depth : Nat) : Json → String
  | null => "null"
  | bool b => if b then "true" else "false"
  | number n => toString n
  | text s => quote s
  | list items => enclose l depth "[" "]" (writeItems l (depth + 1) items)
  | object fields => enclose l depth "\x7b" "\x7d" (writeFields l (depth + 1) fields)

def writeItems (l : Layout) (depth : Nat) : List Json → List String
  | [] => []
  | j :: js => write l depth j :: writeItems l depth js

def writeFields (l : Layout) (depth : Nat) : List (String × Json) → List String
  | [] => []
  | (name, j) :: fs => (quote name ++ ": " ++ write l depth j) :: writeFields l depth fs

end

def render (j : Json) (indent : Option Nat) : String :=
  match indent with
  | none => j.write .line 0
  | some width => j.write (.indented width) 0

end Json

end MaskedTaint
