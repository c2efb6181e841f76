import Std.Data.ExtTreeSet

/-!
# Cancellation

Tokens form trees: a token is the path to it from a root, its own number first.  Cancelling a token
cancels everything below it, and nothing else (`isCancelled_iff`).  It cannot be undone.
-/

namespace ChunkLedger.Mining

abbrev Token := List Nat

/-- a token and those above it; last the empty path, which is above every root -/
def Token.upwards : Token → List Token
  | [] => [[]]
  | n :: t => (n :: t) :: upwards t

theorem Token.mem_upwards {s t : Token} : s ∈ t.upwards ↔ s <:+ t := by
  induction t with
  | nil => simp [upwards]
  | cons n t ih => simp [upwards, ih, List.suffix_cons_iff]

/-- the tokens that have been cancelled, and how many tokens have been made -/
structure Tokens where
  cancelled : Std.ExtTreeSet Token
  made : Nat

namespace Tokens

def none : Tokens := ⟨{}, 0⟩

/-- a new token below `parent`; a root if that is empty -/
def child (ts : Tokens) (parent : Token) : Token × Tokens :=
  (ts.made :: parent, { ts with made := ts.made + 1 })

def cancel (ts : Tokens) (t : Token) : Tokens := { ts with cancelled := ts.cancelled.insert t }

def cancelAll (ts : Tokens) (l : List Token) : Tokens := l.foldl cancel ts

/-- the token, or one above it, has been cancelled -/
def isCancelled (ts : Tokens) (t : Token) : Bool := t.upwards.any ts.cancelled.contains

theorem isCancelled_iff {ts : Tokens} {t : Token} :
    ts.isCancelled t = true ↔ ∃ s ∈ ts.cancelled, s <:+ t := by
  simp [isCancelled, Token.mem_upwards, and_comm]

theorem isCancelled_none (t : Token) : none.isCancelled t = false := by
  simp [isCancelled, none]

theorem isCancelled_cancel (ts : Tokens) (s t : Token) :
    (ts.cancel s).isCancelled t = (s.isSuffixOf t || ts.isCancelled t) := by
  rw [Bool.eq_iff_iff, Bool.or_eq_true, isCancelled_iff, isCancelled_iff, List.isSuffixOf_iff_suffix]
  simp [cancel, Std.ExtTreeSet.mem_insert]

theorem isCancelled_child (ts : Tokens) (parent t : Token) :
    (ts.child parent).2.isCancelled t = ts.isCancelled t := rfl

@[simp] theorem cancelAll_nil (ts : Tokens) : ts.cancelAll [] = ts := rfl
@[simp] theorem cancelAll_cons (ts : Tokens) (t : Token) (l : List Token) :
    ts.cancelAll (t :: l) = (ts.cancel t).cancelAll l := rfl

theorem mem_cancelled_cancel {ts : Tokens} {s t : Token} :
    t ∈ (ts.cancel s).cancelled ↔ s = t ∨ t ∈ ts.cancelled := by
  simp [cancel, Std.ExtTreeSet.mem_insert]

theorem mem_cancelled_cancelAll {ts : Tokens} {l : List Token} {t : Token} :
    t ∈ (ts.cancelAll l).cancelled ↔ t ∈ l ∨ t ∈ ts.cancelled := by
  induction l generalizing ts with
  | nil => simp
  | cons s l ih =>
    rw [cancelAll_cons, ih, mem_cancelled_cancel, List.mem_cons, or_left_comm, or_assoc, eq_comm]

@[simp] theorem made_cancelAll (ts : Tokens) (l : List Token) :
    (ts.cancelAll l).made = ts.made := by
  induction l generalizing ts with
  | nil => rfl
  | cons s l ih => rw [cancelAll_cons, ih, cancel]

end Tokens

end ChunkLedger.Mining
