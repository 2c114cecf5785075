import Mathlib.Tactic
import Mathlib.Algebra.Group.Basic

set_option autoImplicit false

/-! # Differential coding of a sequence

A sequence is stored as the differences of neighbouring entries, starting from a given
predecessor. Over a commutative group nothing is assumed of the entries: they need not be
sorted, and over the machine integers the differences may wrap around.
-/

namespace CSearch

section

variable {α : Type} [AddCommGroup α]

/-- The differences of a sequence, the first one taken to `prev`. -/
def deltas (prev : α) : List α → List α
  | [] => []
  | x :: xs => (x - prev) :: deltas x xs

/-- The sequence with the given differences: the running sums, starting from `prev`. -/
def undeltas (prev : α) : List α → List α
  | [] => []
  | d :: ds => (d + prev) :: undeltas (d + prev) ds

@[simp] theorem deltas_length (prev : α) (xs : List α) : (deltas prev xs).length = xs.length := by
  induction xs generalizing prev with
  | nil => rfl
  | cons x xs ih => simp [deltas, ih]

@[simp] theorem undeltas_length (prev : α) (ds : List α) :
    (undeltas prev ds).length = ds.length := by
  induction ds generalizing prev with
  | nil => rfl
  | cons d ds ih => simp [undeltas, ih]

/-- **The running sums of the differences are the sequence.** -/
@[simp] theorem undeltas_deltas (prev : α) (xs : List α) :
    undeltas prev (deltas prev xs) = xs := by
  induction xs generalizing prev with
  | nil => rfl
  | cons x xs ih => simp [deltas, undeltas, ih]

@[simp] theorem deltas_undeltas (prev : α) (ds : List α) :
    deltas prev (undeltas prev ds) = ds := by
  induction ds generalizing prev with
  | nil => rfl
  | cons d ds ih => simp [deltas, undeltas, ih]

/-- Running sums can be taken in two parts, the second starting from where the first ends. -/
theorem undeltas_append (prev : α) (as bs : List α) :
    undeltas prev (as ++ bs)
      = undeltas prev as ++ undeltas ((undeltas prev as).getLastD prev) bs := by
  induction as generalizing prev with
  | nil => rfl
  | cons a as ih =>
      rw [List.cons_append, undeltas, undeltas, ih, List.cons_append, List.getLastD_cons]

end

end CSearch
