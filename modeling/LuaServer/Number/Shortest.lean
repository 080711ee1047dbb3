/-
# The shortest decimal of a double

A double is written with the fewest decimal digits that read back as the same double, and of the
decimals with that many digits the one nearest to it.

The reals that round to `m * 2 ^ e` form an interval around it whose ends are the midpoints to its
two neighbours; the ends belong to it when `m` is even.  For 1, 2, .. 17 digits, `shortest` tests the
two neighbours of the value on the grid of decimals with that many digits.  If any point of a grid
lies in the interval then so does one of those two, so the first grid with a hit gives the least
number of digits.

`Double.text` then lays the digits out: positionally for decimal exponents from -4 to 15, with an
exponent of a sign and at least two digits otherwise.
-/
import LuaServer.Number.Double

namespace LuaServer
namespace Double

/-! ## 1. The digits -/

/-- The interval of the reals that round to `m * 2 ^ e`: over the common denominator `den`, the
value is `num`, and the ends are `num - below` and `num + above`. -/
structure Interval where
  num : Nat
  den : Nat
  below : Nat
  above : Nat
  closed : Bool

/-- The interval of a positive double.  Below a power of two the neighbours are twice as dense. -/
def interval (m : Nat) (e : Int) : Interval :=
  let dense := m = Nat.pow 2 52 && -1074 < e
  let unit := if 0 ≤ e then Nat.pow 2 e.toNat else 1
  let den := if 0 ≤ e then 4 else 4 * Nat.pow 2 (-e).toNat
  { num := 4 * m * unit, den := den, below := if dense then unit else 2 * unit,
    above := 2 * unit, closed := m % 2 = 0 }

/-- `p / q` lies in the interval. -/
def Interval.holds (i : Interval) (p q : Nat) : Bool :=
  let x := p * i.den
  let lo := (i.num - i.below) * q
  let hi := (i.num + i.above) * q
  if i.closed then lo ≤ x && x ≤ hi else lo < x && x < hi

/-- `digits * 10 ^ scale` as a quotient. -/
def tenfold (digits : Nat) (scale : Int) : Nat × Nat :=
  if 0 ≤ scale then (digits * Nat.pow 10 scale.toNat, 1) else (digits, Nat.pow 10 (-scale).toNat)

/-- The distance of `p / q` from the value, over the denominator `q * den`. -/
def Interval.distance (i : Interval) (p q : Nat) : Nat :=
  ((p * i.den : Int) - (i.num * q : Int)).natAbs

/-- The better of the value's two neighbours on the grid of the multiples of `10 ^ scale`. -/
def Interval.onGrid (i : Interval) (scale : Int) : Option Nat :=
  let lower :=
    if 0 ≤ scale then i.num / (i.den * Nat.pow 10 scale.toNat)
    else i.num * Nat.pow 10 (-scale).toNat / i.den
  let upper := lower + 1
  let (p, q) := tenfold lower scale
  let (p', q') := tenfold upper scale
  match i.holds p q && lower != 0, i.holds p' q' with
  | false, false => none
  | true, false => some lower
  | false, true => some upper
  | true, true =>
    let d := i.distance p q
    let d' := i.distance p' q'
    some (if d < d' then lower else if d' < d then upper else if lower % 2 = 0 then lower else upper)

/-- The least `k` with `num / den < 10 ^ k`, found from below a starting point. -/
def magnitude (num den : Nat) : Int :=
  let k : Int := (Nat.toDigits 10 num).length - (Nat.toDigits 10 den).length
  -- `10 ^ (k - 1) < num / den < 10 ^ (k + 1)`
  let (n, d) := if 0 ≤ k then (num, den * Nat.pow 10 k.toNat) else (num * Nat.pow 10 (-k).toNat, den)
  if n < d then k else k + 1

/-- Search of the grids with `count`, `count + 1`, .. digits, at most `fuel` of them. -/
def shortestFrom (i : Interval) (k : Int) (count : Nat) : Nat → Nat × Int
  | 0 => (0, 0)
  | fuel + 1 =>
    match i.onGrid (k - count) with
    | some d => (d, k - count)
    | none => shortestFrom i k (count + 1) fuel

/-- The shortest decimal `digits * 10 ^ scale` of a positive double. -/
def shortest (m : Nat) (e : Int) : Nat × Int :=
  let i := interval m e
  shortestFrom i (magnitude i.num i.den) 1 17

/-! ## 2. The layout -/

/-- Where positional notation ends, and how an exponent is written. -/
structure Layout where
  /-- The least decimal exponent written positionally. -/
  least : Int
  /-- The first decimal exponent that is not written positionally. -/
  beyond : Int
  /-- The least number of digits of an exponent. -/
  width : Nat

/-- Exponents from -4 to 15 are positional, others have a sign and at least two digits. -/
def layout : Layout := ⟨-4, 16, 2⟩

/-- A number of at least `width` digits. -/
def padded (width n : Nat) : Text :=
  let ds := decimal n
  List.replicate (width - ds.length) (code '0') ++ ds

/-- Digits without the zeros at their end. -/
def dropZeros (ds : Text) : Text := (ds.reverse.dropWhile (· = code '0')).reverse

/-- The digits `ds`, of which `point` stand before the point, in the given layout. -/
def Layout.render (l : Layout) (ds : Text) (point : Int) : Text :=
  let exp := point - 1
  if l.least ≤ exp ∧ exp < l.beyond then
    if point ≤ 0 then text "0." ++ List.replicate (-point).toNat (code '0') ++ ds
    else
      let n := point.toNat
      if ds.length ≤ n then ds ++ List.replicate (n - ds.length) (code '0') ++ text ".0"
      else ds.take n ++ [code '.'] ++ ds.drop n
  else
    let mantissa := match ds with
      | [] => []
      | [d] => [d]
      | d :: rest => d :: code '.' :: rest
    let mark := if exp < 0 then text "e-" else text "e+"
    mantissa ++ mark ++ padded l.width exp.natAbs

/-- The text of a double: the shortest decimal that reads back as it. -/
def text : Double → Text
  | .nan => LuaServer.text "nan"
  | .infinite neg => LuaServer.text (if neg then "-inf" else "inf")
  | .finite neg m e =>
    let minus := if neg then [code '-'] else []
    if m = 0 then minus ++ LuaServer.text "0.0"
    else
      let (d, scale) := shortest m e
      let ds := decimal d
      minus ++ layout.render (dropZeros ds) (ds.length + scale)

end Double
end LuaServer
