import MaskedTaint.Cipher.Block

/-! The block cipher AES, in the direction of encryption. A table joins the
substitution with the mixing of columns. -/

namespace MaskedTaint

namespace Aes

def double (b : UInt8) : UInt8 := (b <<< 1) ^^^ (if b < 0x80 then 0 else 0x1b)

def times (a b : UInt8) : UInt8 := go 8 a b 0
where
  go : Nat → UInt8 → UInt8 → UInt8 → UInt8
    | 0, _, _, sum => sum
    | n + 1, a, b, sum => go n (double a) (b >>> 1) (if b &&& 1 == 1 then sum ^^^ a else sum)

def inverse (b : UInt8) : UInt8 := go 7 (times b b) 1
where
  go : Nat → UInt8 → UInt8 → UInt8
    | 0, _, product => product
    | n + 1, power, product => go n (times power power) (times product power)

@[inline] def turn8 (b n : UInt8) : UInt8 := (b <<< n) ||| (b >>> (8 - n))

def substituted (b : UInt8) : UInt8 :=
  let c := inverse b
  c ^^^ turn8 c 1 ^^^ turn8 c 2 ^^^ turn8 c 3 ^^^ turn8 c 4 ^^^ 0x63

def substitution : Array UInt8 :=
  (List.range 256).toArray.map fun i => substituted (UInt8.ofNat i)

@[inline] def sub (b : UInt32) : UInt32 := (substitution.getD (b &&& 0xff).toNat 0).toUInt32

def columns : Array UInt32 :=
  substitution.map fun s =>
    (double s).toUInt32 <<< 24 ||| s.toUInt32 <<< 16 ||| s.toUInt32 <<< 8 |||
      (double s ^^^ s).toUInt32

@[inline] def column (b : UInt32) : UInt32 := columns.getD (b &&& 0xff).toNat 0

@[inline] def turnRight (w n : UInt32) : UInt32 := (w >>> n) ||| (w <<< (32 - n))

structure Columns where
  c0 : UInt32
  c1 : UInt32
  c2 : UInt32
  c3 : UInt32

@[inline] def mixed (a b c d key : UInt32) : UInt32 :=
  column (a >>> 24) ^^^ turnRight (column (b >>> 16)) 8 ^^^ turnRight (column (c >>> 8)) 16 ^^^
    turnRight (column d) 24 ^^^ key

@[inline] def final (a b c d key : UInt32) : UInt32 :=
  (sub (a >>> 24) <<< 24 ||| sub (b >>> 16) <<< 16 ||| sub (c >>> 8) <<< 8 ||| sub d) ^^^ key

abbrev Schedule := Array UInt32

@[inline] def roundKey (keys : Schedule) (i : Nat) : UInt32 := keys.getD i 0

def rounds (keys : Schedule) : Nat → Nat → Columns → Columns
  | 0, r, s =>
    let k := 4 * r
    ⟨final s.c0 s.c1 s.c2 s.c3 (roundKey keys k), final s.c1 s.c2 s.c3 s.c0 (roundKey keys (k + 1)),
      final s.c2 s.c3 s.c0 s.c1 (roundKey keys (k + 2)),
      final s.c3 s.c0 s.c1 s.c2 (roundKey keys (k + 3))⟩
  | n + 1, r, s =>
    let k := 4 * r
    rounds keys n (r + 1)
      ⟨mixed s.c0 s.c1 s.c2 s.c3 (roundKey keys k), mixed s.c1 s.c2 s.c3 s.c0 (roundKey keys (k + 1)),
        mixed s.c2 s.c3 s.c0 s.c1 (roundKey keys (k + 2)),
        mixed s.c3 s.c0 s.c1 s.c2 (roundKey keys (k + 3))⟩

def encrypt (keys : Schedule) (b : Block16) : Block16 :=
  let s : Columns :=
    ⟨(b.hi >>> 32).toUInt32 ^^^ roundKey keys 0, b.hi.toUInt32 ^^^ roundKey keys 1,
      (b.lo >>> 32).toUInt32 ^^^ roundKey keys 2, b.lo.toUInt32 ^^^ roundKey keys 3⟩
  let s := rounds keys (keys.size / 4 - 2) 1 s
  ⟨s.c0.toUInt64 <<< 32 ||| s.c1.toUInt64, s.c2.toUInt64 <<< 32 ||| s.c3.toUInt64⟩

def subWord (w : UInt32) : UInt32 :=
  sub (w >>> 24) <<< 24 ||| sub (w >>> 16) <<< 16 ||| sub (w >>> 8) <<< 8 ||| sub w

def keyWords : Bytes → List UInt32
  | a :: b :: c :: d :: bs =>
    (a.toUInt32 <<< 24 ||| b.toUInt32 <<< 16 ||| c.toUInt32 <<< 8 ||| d.toUInt32) :: keyWords bs
  | _ => []

/-- Adds words until there are enough; `round` is the constant of the next turn. -/
def expand (width : Nat) : Nat → UInt8 → Schedule → Schedule
  | 0, _, ws => ws
  | n + 1, round, ws =>
    let i := ws.size
    let last := ws.getD (i - 1) 0
    let back := ws.getD (i - width) 0
    if i % width = 0 then
      expand width n (double round)
        (ws.push (back ^^^ subWord (turnRight last 24) ^^^ round.toUInt32 <<< 24))
    else if width > 6 && i % width = 4 then expand width n round (ws.push (back ^^^ subWord last))
    else expand width n round (ws.push (back ^^^ last))

def schedule (key : Bytes) : Schedule :=
  let ws := (keyWords key).toArray
  expand ws.size (4 * (ws.size + 7) - ws.size) 1 ws

def isKeyLength (n : Nat) : Bool := n == 16 || n == 24 || n == 32

end Aes

end MaskedTaint
