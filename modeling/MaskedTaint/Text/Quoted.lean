/-! How a text is shown inside a message: in quotes, with the characters that cannot
be seen written as escapes. -/

namespace MaskedTaint

namespace Quoted

def hexDigits (width n : Nat) : List Char :=
  let digits := Nat.toDigits 16 n
  List.replicate (width - digits.length) '0' ++ digits

def isHidden (n : Nat) : Bool :=
  n < 32 || (127 ≤ n && n ≤ 160) || n == 173 || (0x2000 ≤ n && n ≤ 0x200f) ||
    (0x2028 ≤ n && n ≤ 0x202f) || n == 0xfeff || (0xe000 ≤ n && n ≤ 0xf8ff)

def escape (mark c : Char) : List Char :=
  if c = mark || c = '\\' then ['\\', c]
  else if c = '\n' then ['\\', 'n']
  else if c = '\r' then ['\\', 'r']
  else if c = '\t' then ['\\', 't']
  else if isHidden c.toNat then
    if c.toNat < 256 then '\\' :: 'x' :: hexDigits 2 c.toNat else '\\' :: 'u' :: hexDigits 4 c.toNat
  else [c]

def markFor (cs : List Char) : Char := if cs.contains '\'' && !cs.contains '"' then '"' else '\''

def render (s : String) : String :=
  let mark := markFor s.toList
  String.ofList (mark :: s.toList.flatMap (escape mark) ++ [mark])

end Quoted

end MaskedTaint
