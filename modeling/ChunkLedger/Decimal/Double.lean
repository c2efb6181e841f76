/-!
# Doubles in decimal text

A double is kept as its 64 bits.  Two things are done with it: a decimal numeral is turned into a
double, and a double is written with the fewest digits that read back.

* `Double.scaled?`   a whole number of 64 bits times a power of ten, rounded after each of the two
                     steps; none where the result is not finite;
* `Double.shortest`  the shortest digits inside the interval of reals that round to the double,
                     and among those the nearest to it;
* `Double.render`    these digits with the point where it belongs: positional from `1e-5` on and
                     below `1e16`, in scientific form outside.
-/

namespace ChunkLedger

-- powers of numbers are those of core, whatever else is in scope
attribute [local instance(high)] instPowNat

structure Double where
  bits : UInt64
deriving DecidableEq, Repr

namespace Double

/-! ## from decimal text -/

def ofFloat (negative : Bool) (x : Float) : Double := ⟨(if negative then -x else x).toBits⟩

/-- `10 ^ k` for `k ≤ 308` -/
def tenTo (k : Nat) : Float := Float.ofScientific 1 false k

/-- the magnitude `x · 10 ^ e`; a large negative power is divided off in portions -/
def scaleFloat? (x : Float) (e : Int) : Option Float :=
  if e.natAbs ≤ 308 then
    if 0 ≤ e then
      let y := x * tenTo e.natAbs
      if y.isInf then none else some y
    else some (x / tenTo e.natAbs)
  else if x == 0 then some x
  else if 0 ≤ e then none
  else scaleFloat? (x / tenTo 308) (e + 308)
termination_by e.natAbs
decreasing_by omega

/-- `± significand · 10 ^ exponent` -/
def scaled? (negative : Bool) (significand : UInt64) (exponent : Int) : Option Double :=
  (scaleFloat? significand.toFloat exponent).map (ofFloat negative)

/-! ## the value as an integer times a power of two -/

def isNegative (d : Double) : Bool := d.bits >>> 63 = 1

/-- the biased exponent, eleven bits -/
def exponentField (d : Double) : Nat := ((d.bits >>> 52) &&& 0x7ff).toNat

/-- the fraction, fifty-two bits -/
def fractionField (d : Double) : Nat := (d.bits &&& 0xfffffffffffff).toNat

/-- `m` in `|d| = m · 2 ^ q` -/
def mantissa (d : Double) : Nat :=
  if d.exponentField = 0 then d.fractionField else 0x10000000000000 + d.fractionField

/-- `q` in `|d| = m · 2 ^ q` -/
def binaryExponent (d : Double) : Int :=
  if d.exponentField = 0 then -1074 else d.exponentField - 1075

/-! ## the fewest digits -/

/-- An interval of fractions with one denominator, and a point in it: `low ≤ value ≤ high`.  The
ends belong to it iff `closed`. -/
structure Interval where
  (low value high den : Nat)
  closed : Bool

/-- the reals that round to `d`: half way to the neighbours on both sides -/
def interval (d : Double) : Interval :=
  let m := d.mantissa
  let q := d.binaryExponent
  let unit := 2 ^ q.toNat
  let below := if d.fractionField = 0 ∧ 1 < d.exponentField then unit else 2 * unit
  ⟨4 * m * unit - below, 4 * m * unit, 4 * m * unit + 2 * unit, 4 * 2 ^ (-q).toNat, m % 2 = 0⟩

namespace Interval

def holds (v : Interval) (c : Nat) (p : Int) : Bool :=
  let x := c * 10 ^ p.toNat * v.den
  let scale := 10 ^ (-p).toNat
  if v.closed then v.low * scale ≤ x && x ≤ v.high * scale
  else v.low * scale < x && x < v.high * scale

/-- no value but zero is below ten to the negative of this power -/
def deepest : Nat := 400

/-- the `k` with `10 ^ (k - 1) ≤ value < 10 ^ k`, for a value of at least `10 ^ -deepest` -/
def magnitude (v : Interval) : Int :=
  (Nat.toDigits 10 (v.value * 10 ^ deepest / v.den)).length - deepest

/-- the point of the grid of step `10 ^ p` nearest to the value, if one lies in the interval -/
def nearest? (v : Interval) (p : Int) : Option Nat :=
  let num := v.value * 10 ^ (-p).toNat
  let den := v.den * 10 ^ p.toNat
  let c := num / den
  match v.holds c p, v.holds (c + 1) p with
  | false, false => none
  | true, false => some c
  | false, true => some (c + 1)
  | true, true =>
    let twice := 2 * (num % den)
    some (if twice < den ∨ (twice = den ∧ c % 2 = 0) then c else c + 1)

/-- the first hit on the grids of step `10 ^ p`, `10 ^ (p - 1)`, … (`n` of them) -/
def firstHit (v : Interval) : (n : Nat) → (p : Int) → Nat × Int
  | 0, p => (v.value * 10 ^ (-p).toNat / (v.den * 10 ^ p.toNat), p)
  | n+1, p =>
    match v.nearest? p with
    | some c => (c, p)
    | none => v.firstHit n (p - 1)

end Interval

/-- `c` and `p` such that `c · 10 ^ p` has the fewest digits of all decimals that read back -/
def shortest (d : Double) : Nat × Int :=
  let v := d.interval
  v.firstHit 17 (v.magnitude - 1)

/-! ## text -/

/-- the digits `ds` with the point after the first `k` of them, or before them for `k ≤ 0` -/
def positional (ds : List Char) (k : Int) : List Char :=
  if k ≤ 0 then '0' :: '.' :: (List.replicate (-k).toNat '0' ++ ds)
  else if ds.length ≤ k.toNat then ds ++ List.replicate (k.toNat - ds.length) '0' ++ ['.', '0']
  else ds.take k.toNat ++ '.' :: ds.drop k.toNat

/-- the digits `ds` with the point after the first, times `10 ^ e` -/
def scientific (ds : List Char) (e : Int) : List Char :=
  let front := match ds with
    | d :: d' :: rest => d :: '.' :: d' :: rest
    | short => short
  front ++ 'e' :: (if 0 ≤ e then '+' else '-') :: Nat.toDigits 10 e.natAbs

/-- the digits of a positive number, without zeros at the end -/
def significantDigits (c : Nat) : List Char :=
  ((Nat.toDigits 10 c).reverse.dropWhile (· = '0')).reverse

def renderMagnitude (d : Double) : List Char :=
  if d.mantissa = 0 then ['0', '.', '0']
  else
    let (c, p) := d.shortest
    let ds := significantDigits c
    let k := (Nat.toDigits 10 c).length + p
    if -5 < k ∧ k ≤ 16 then positional ds k else scientific ds (k - 1)

def render (d : Double) : String :=
  String.ofList (if d.isNegative then '-' :: d.renderMagnitude else d.renderMagnitude)

end Double

end ChunkLedger
