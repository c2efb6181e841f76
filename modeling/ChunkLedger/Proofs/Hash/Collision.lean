import ChunkLedger.Hash.Sha256

/-!
# Telling byte strings apart

A digest stands for a byte string only as long as the hash function tells apart the byte strings
that are really hashed.  `NoCollision xs` says so of the byte strings `xs`; the lists that occur
are those hashed by one run of the program, so nothing is asked of all byte strings at once.
-/

namespace ChunkLedger

/-- different byte strings of the list have different digests -/
def NoCollision (xs : List Bytes) : Prop := ∀ x ∈ xs, ∀ y ∈ xs, sha256 x = sha256 y → x = y

instance (xs : List Bytes) : Decidable (NoCollision xs) :=
  inferInstanceAs (Decidable (∀ x ∈ xs, ∀ y ∈ xs, sha256 x = sha256 y → x = y))

namespace NoCollision

theorem mono {xs ys : List Bytes} (h : NoCollision ys) (hsub : xs ⊆ ys) : NoCollision xs :=
  fun x hx y hy => h x (hsub hx) y (hsub hy)

/-- two digests in terms of what was hashed determine what was hashed -/
theorem pair_inj {xs : List Bytes} (h : NoCollision xs) {a b c d : Digest}
    (hab : a.bytes ++ b.bytes ∈ xs) (hcd : c.bytes ++ d.bytes ∈ xs) (e : a.pair b = c.pair d) :
    a = c ∧ b = d :=
  Digest.pair_preimage_inj (h _ hab _ hcd e)

end NoCollision

end ChunkLedger
