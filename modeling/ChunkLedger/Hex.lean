import ChunkLedger.Bytes
import ChunkLedger.Text.Quoted

/-!
# Hexadecimal text

Two digits per byte, the high half first, lower case when written and either case when read.
Reading looks at the bytes of the text: lengths and offsets count bytes.  Of several faults an odd
length is reported first, then (where the length is prescribed) a wrong length, then the first byte
that is no digit.

`decodeDigits_digits` : what is written is read back.
-/

namespace ChunkLedger.Hex

/-! ## digits -/

def digit : Nat → UInt8
  | 0 => 48 | 1 => 49 | 2 => 50 | 3 => 51 | 4 => 52 | 5 => 53 | 6 => 54 | 7 => 55
  | 8 => 56 | 9 => 57 | 10 => 97 | 11 => 98 | 12 => 99 | 13 => 100 | 14 => 101 | _ => 102

/-- the value of a digit of either case -/
def value? (b : UInt8) : Option Nat :=
  if 48 ≤ b ∧ b ≤ 57 then some (b.toNat - 48)
  else if 97 ≤ b ∧ b ≤ 102 then some (b.toNat - 87)
  else if 65 ≤ b ∧ b ≤ 70 then some (b.toNat - 55)
  else none

theorem value?_digit (n : Nat) (h : n < 16) : value? (digit n) = some n := by
  revert n; decide

/-! ## writing -/

def digits (bs : Bytes) : Bytes :=
  bs.flatMap fun b => [digit (b.toNat / 16), digit (b.toNat % 16)]

def encode (bs : Bytes) : String :=
  String.ofList ((digits bs).map fun b => Char.ofNat b.toNat)

theorem digits_nil : digits [] = [] := rfl

theorem digits_cons (b : UInt8) (bs : Bytes) :
    digits (b :: bs) = digit (b.toNat / 16) :: digit (b.toNat % 16) :: digits bs := rfl

@[simp] theorem length_digits (bs : Bytes) : (digits bs).length = 2 * bs.length := by
  induction bs with
  | nil => rfl
  | cons b bs ih =>
    rw [digits_cons, List.length_cons, List.length_cons, ih, List.length_cons]
    omega

/-! ## reading -/

inductive Fault where
  | oddLength
  | wrongLength
  /-- a byte that is no digit, and its offset -/
  | badByte (byte : UInt8) (offset : Nat)
deriving DecidableEq, Repr

def Fault.message : Fault → String
  | .oddLength => "Odd number of digits"
  | .wrongLength => "Invalid string length"
  | .badByte b i =>
    "Invalid character " ++ Text.quotedChar (Char.ofNat b.toNat) ++ " at position " ++ toString i

/-- the byte of two digits at the offsets `i` and `i + 1` -/
def pair (i : Nat) (hi lo : UInt8) : Except Fault UInt8 :=
  match value? hi, value? lo with
  | none, _ => .error (.badByte hi i)
  | some _, none => .error (.badByte lo (i + 1))
  | some h, some l => .ok (UInt8.ofNat (16 * h + l))

/-- the bytes of the digits from offset `i` on; `acc` holds the bytes before them, last first -/
def pairs : (i : Nat) → (acc : Bytes) → Bytes → Except Fault Bytes
  | i, acc, hi :: lo :: rest =>
    match pair i hi lo with
    | .error e => .error e
    | .ok b => pairs (i + 2) (b :: acc) rest
  | _, acc, [] => .ok acc.reverse
  | _, _, [_] => .error .oddLength

def decodeDigits (ds : Bytes) : Except Fault Bytes :=
  if ds.length % 2 = 1 then .error .oddLength else pairs 0 [] ds

def decode (s : String) : Except Fault Bytes := decodeDigits (utf8 s)

/-- the bytes of a text that must spell exactly `n` of them -/
def decodeExactly (n : Nat) (s : String) : Except Fault Bytes :=
  let ds := utf8 s
  if ds.length % 2 = 1 then .error .oddLength
  else if ds.length ≠ 2 * n then .error .wrongLength
  else pairs 0 [] ds

theorem pair_digits (i : Nat) (b : UInt8) :
    pair i (digit (b.toNat / 16)) (digit (b.toNat % 16)) = .ok b := by
  have hb : b.toNat < 256 := b.toNat_lt
  have e : 16 * (b.toNat / 16) + b.toNat % 16 = b.toNat := by omega
  simp only [pair, value?_digit _ (show b.toNat / 16 < 16 by omega),
    value?_digit _ (show b.toNat % 16 < 16 by omega), e, UInt8.ofNat_toNat]

theorem pairs_digits (i : Nat) (acc bs : Bytes) :
    pairs i acc (digits bs) = .ok (acc.reverse ++ bs) := by
  induction bs generalizing i acc with
  | nil => simp [digits_nil, pairs]
  | cons b bs ih => simp [digits_cons, pairs, pair_digits, ih]

theorem decodeDigits_digits (bs : Bytes) : decodeDigits (digits bs) = .ok bs := by
  have h : ¬ (digits bs).length % 2 = 1 := by rw [length_digits]; omega
  rw [decodeDigits, if_neg h, pairs_digits]
  rfl

end ChunkLedger.Hex
