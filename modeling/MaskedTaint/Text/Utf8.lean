import MaskedTaint.Cipher.Bytes

/-! Reading texts from bytes, with the place and the reason of the first fault. -/

namespace MaskedTaint

namespace Utf8

inductive Reason
  | startByte
  | continuation
  | endOfData
deriving DecidableEq, Repr

def Reason.text : Reason → String
  | startByte => "invalid start byte"
  | continuation => "invalid continuation byte"
  | endOfData => "unexpected end of data"

/-- A fault at `start`, `width` bytes wide, the first being `byte`. -/
structure Fault where
  start : Nat
  width : Nat
  byte : UInt8
  reason : Reason
deriving DecidableEq, Repr

def Fault.message (f : Fault) : String :=
  let place :=
    if f.width = 1 then
      "byte 0x" ++ String.ofList (Bytes.hex [f.byte]) ++ " in position " ++ toString f.start
    else "bytes in position " ++ toString f.start ++ "-" ++ toString (f.start + f.width - 1)
  "'utf-8' codec can't decode " ++ place ++ ": " ++ f.reason.text

def isContinuation (b : UInt8) : Bool := b &&& 0xc0 == 0x80

def following? (b : UInt8) : Option Nat :=
  if b < 0x80 then some 0
  else if b < 0xc2 then none
  else if b < 0xe0 then some 1
  else if b < 0xf0 then some 2
  else if b < 0xf5 then some 3
  else none

/-- Whether a byte may come second. Longer codings than needed, surrogates and numbers
beyond the last character are shut out here. -/
def isSecond (first b : UInt8) : Bool :=
  isContinuation b &&
    !(first == 0xe0 && b < 0xa0) && !(first == 0xed && 0xa0 ≤ b) &&
    !(first == 0xf0 && b < 0x90) && !(first == 0xf4 && 0x90 ≤ b)

def goodBytes (first : UInt8) : Nat → Nat → Bytes → Nat
  | 0, _, _ => 0
  | _ + 1, _, [] => 0
  | due + 1, seen, b :: bs =>
    if (if seen = 0 then isSecond first b else isContinuation b) then
      goodBytes first due (seen + 1) bs + 1
    else 0

def leadBits (first : UInt8) : Nat → Nat
  | 0 => first.toNat
  | 1 => first.toNat % 32
  | 2 => first.toNat % 16
  | _ => first.toNat % 8

def decodeFrom : Nat → Nat → List Char → Bytes → Except Fault (List Char)
  | 0, _, done, _ => .ok done.reverse
  | _ + 1, _, done, [] => .ok done.reverse
  | fuel + 1, pos, done, b :: bs =>
    match following? b with
    | none => .error ⟨pos, 1, b, .startByte⟩
    | some due =>
      let good := goodBytes b due 0 bs
      if good = due then
        let value := (bs.take due).foldl (fun n c => n * 64 + c.toNat % 64) (leadBits b due)
        decodeFrom fuel (pos + due + 1) (Char.ofNat value :: done) (bs.drop due)
      else if bs.length = good then .error ⟨pos, good + 1, b, .endOfData⟩
      else .error ⟨pos, good + 1, b, .continuation⟩

def decode (bs : Bytes) : Except Fault String :=
  (decodeFrom (bs.length + 1) 0 [] bs).map String.ofList

end Utf8

end MaskedTaint
