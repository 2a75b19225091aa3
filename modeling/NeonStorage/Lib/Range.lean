import Mathlib

/-!
# Half-open ranges

Rust's `Range` is the pair `start..end` of the keys `start ≤ x < end`.  The layer map uses
it for key ranges (`Range<Key>`, and `Range<i128>` inside the coverage structures) and for
LSN ranges (`Range<Lsn>`).
-/

namespace NeonStorage

/-- A half-open range `start..end`. -/
structure Range (α : Type) where
  start : α
  «end» : α
deriving DecidableEq, Repr

namespace Range

variable {α : Type} [LinearOrder α]

/-- `Range::contains`. -/
def contains (r : Range α) (x : α) : Bool :=
  decide (r.start ≤ x ∧ x < r.end)

/-- `Range::is_empty`. -/
def isEmpty (r : Range α) : Bool :=
  decide (r.end ≤ r.start)

@[simp] theorem contains_iff (r : Range α) (x : α) :
    r.contains x = true ↔ r.start ≤ x ∧ x < r.end := by
  simp [contains]

end Range

end NeonStorage
