import MaskedTaint.Cipher.Tape

/-! Hypergeometric draws: how many good ones are in a sample taken without putting
back. Small samples are drawn one by one, large ones by accepting or rejecting a ratio
of two fractions. -/

namespace MaskedTaint

namespace Hypergeometric

def floorInt (x : Float) : Int := x.floor.toInt64.toInt

def gammaTerms : List Float :=
  [-1.39243221690590e+00, 1.796443723688307e-01, -2.955065359477124e-02, 6.410256410256410e-03,
    -1.917526917526918e-03, 8.417508417508418e-04, -5.952380952380952e-04, 7.936507936507937e-04,
    -2.777777777777778e-03, 8.333333333333333e-02]

def lowered : Nat → Float → Float → Float
  | 0, _, value => value
  | n + 1, x, value => lowered n (x - 1.0) (value - Float.log (x - 1.0))

def logGamma (n : Int) : Float :=
  let x := Float.ofInt n
  if x == 1.0 || x == 2.0 then 0.0
  else
    let steps := if x ≤ 7.0 then (7 - n).toNat else 0
    let x0 := x + Float.ofNat steps
    let x2 := 1.0 / (x0 * x0)
    let series := match gammaTerms with
      | [] => 0.0
      | a :: as => as.foldl (fun sum a => sum * x2 + a) a
    let value := series / x0 + 0.5 * Float.log (2.0 * 3.141592653589793) +
      (x0 - 0.5) * Float.log x0 - x0
    lowered steps x0 value

def drawEach (t : Tape) (others : Int) : Nat → Nat → Float → Float
  | 0, _, left => left
  | k + 1, i, left =>
    if left > 0.0 then
      let taken := (t.fraction i + left / Float.ofInt (others + (k + 1))).floor
      drawEach t others k (i + 1) (left - taken)
    else left

def drawSmall (t : Tape) (sample good bad : Int) : Int :=
  let fewer := Float.ofInt (min bad good)
  let left := drawEach t (bad + good - sample) sample.toNat 0 fewer
  let z := (fewer - left).toInt64.toInt
  if good > bad then sample - z else z

/-- What the rejection loop works with. -/
structure Shape where
  fewer : Int
  more : Int
  /-- The sample or what it leaves, whichever is smaller. -/
  part : Int
  center : Float
  width : Float
  peak : Float
  bound : Float

def logWeight (fewer more part z : Int) : Float :=
  logGamma (z + 1) + logGamma (fewer - z + 1) + logGamma (part - z + 1) +
    logGamma (more - part + z + 1)

def shapeOf (sample good bad : Int) : Shape :=
  let fewer := min good bad
  let all := good + bad
  let more := max good bad
  let part := min sample (all - sample)
  let share := Float.ofInt fewer / Float.ofInt all
  let center := Float.ofInt part * share + 0.5
  let deviation := Float.sqrt (Float.ofInt ((all - part) * sample) * share * (1.0 - share) /
    Float.ofInt (all - 1) + 0.5)
  let mode := floorInt (Float.ofInt (part + 1) * Float.ofInt (fewer + 1) / Float.ofInt (all + 2))
  let first := Float.ofInt (min part fewer) + 1.0
  let second := (center + 16.0 * deviation).floor
  { fewer := fewer, more := more, part := part, center := center
    width := 1.7155277699214135 * deviation + 0.8989161620588988
    peak := logWeight fewer more part mode
    bound := if second < first then second else first }

/-- Tries pairs of fractions until one is accepted; `fuel` bounds the tries. -/
def accept (t : Tape) (s : Shape) : Nat → Nat → Int
  | 0, _ => 0
  | fuel + 1, i =>
    let x := t.fraction i
    let y := t.fraction (i + 1)
    let w := s.center + s.width * (y - 0.5) / x
    if w < 0.0 || w ≥ s.bound then accept t s fuel (i + 2)
    else
      let z := floorInt w
      let gain := s.peak - logWeight s.fewer s.more s.part z
      if x * (4.0 - x) - 3.0 ≤ gain then z
      else if x * (x - gain) ≥ 1.0 then accept t s fuel (i + 2)
      else if 2.0 * Float.log x ≤ gain then z
      else accept t s fuel (i + 2)

def drawLarge (t : Tape) (sample good bad : Int) : Int :=
  let s := shapeOf sample good bad
  let z := accept t s 100000 0
  let z := if good > bad then s.part - z else z
  if s.part < sample then good - z else z

def draw (t : Tape) (sample good bad : Int) : Int :=
  if sample > 10 then drawLarge t sample good bad else drawSmall t sample good bad

end Hypergeometric

end MaskedTaint
