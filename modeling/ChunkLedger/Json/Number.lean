import ChunkLedger.Decimal.Double

/-!
# JSON numbers

A number is a whole number that fits 64 bits, with or without a sign, or a double.  A numeral is
read as a whole number if it has neither fraction nor exponent and fits; `-0` and everything else
become doubles.

A double is read off a numeral in two steps.  The digits are collected into a whole number of 64
bits: once the next digit of the whole part does not fit, the rest of that part only counts as
powers of ten, and once the next digit of the fraction does not fit, the rest of the fraction is
dropped.  Then the power of ten is applied.
-/

namespace ChunkLedger.Json

inductive Number where
  | natural (n : UInt64)
  /-- the number `-(m + 1)` -/
  | negative (m : Fin 0x8000000000000000)
  | double (x : Double)
deriving DecidableEq, Repr

def Number.render : Number → String
  | .natural n => String.ofList (Nat.toDigits 10 n.toNat)
  | .negative m => String.ofList ('-' :: Nat.toDigits 10 (m.val + 1))
  | .double x => x.render

/-- the parts of a well-formed numeral; digits are numbers below ten -/
structure Numeral where
  negative : Bool
  whole : List Nat
  fraction : Option (List Nat)
  /-- the sign (is it a minus?) and the digits -/
  exponent : Option (Bool × List Nat)

namespace Numeral

/-- the next digit still fits 64 bits -/
def fits (n d : Nat) : Bool := n * 10 + d < UInt64.size

/-- the collected number, and how many digits of the whole part did not fit -/
def collectWhole : (n : Nat) → List Nat → Nat × Nat
  | n, [] => (n, 0)
  | n, d :: ds => if fits n d then collectWhole (n * 10 + d) ds else (n, ds.length + 1)

/-- the collected number, and how many digits of the fraction fitted -/
def collectFraction : (n : Nat) → List Nat → Nat × Nat
  | n, [] => (n, 0)
  | n, d :: ds =>
    if fits n d then
      let (m, k) := collectFraction (n * 10 + d) ds
      (m, k + 1)
    else (n, 0)

def value (ds : List Nat) : Nat := ds.foldl (fun n d => n * 10 + d) 0

def exponentValue : Option (Bool × List Nat) → Int
  | none => 0
  | some (minus, ds) => if minus then -(value ds : Int) else value ds

def toDouble? (n : Numeral) : Option Double :=
  let (whole, dropped) := collectWhole 0 n.whole
  let (significand, taken) := collectFraction whole (n.fraction.getD [])
  Double.scaled? n.negative (UInt64.ofNat significand)
    ((dropped : Int) - taken + exponentValue n.exponent)

/-- the whole number that a numeral without fraction and exponent stands for, if it fits -/
def toWhole? (n : Numeral) : Option Number :=
  match n.fraction, n.exponent with
  | none, none =>
    let v := value n.whole
    if n.negative then
      if h : 0 < v ∧ v ≤ 0x8000000000000000 then some (.negative ⟨v - 1, by omega⟩) else none
    else if v < UInt64.size then some (.natural (UInt64.ofNat v)) else none
  | _, _ => none

/-- the number that is read; none if it is beyond the finite doubles -/
def toNumber? (n : Numeral) : Option Number :=
  match n.toWhole? with
  | some w => some w
  | none => n.toDouble?.map .double

end Numeral

end ChunkLedger.Json
