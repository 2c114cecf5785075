import CSearch.Basic.Runs
import Mathlib.Data.Nat.Log

set_option autoImplicit false

/-! # Growing arrays

An array that is extended at its end, and moved to a larger place when it does not fit. The new
place has a power of two of cells.

* Rounding up to a power of two is done with bits: `x` is combined with its shifts by 1, 2, 4 and so
  on, until every bit below the highest one is set. `Smeared x w y` says how far `y` has come, and
  `Smeared.eq_pow` where this ends.
* `Extent` has the sizes of the array and nothing else. `Extent.Room bound` says that a step stays
  below a bound; below the half of it there always is room (`atEach_room_of_sum`).
-/

namespace CSearch

/-! ## Smearing bits -/

/-- A bit of `y` is set if one of the `w` bits of `x` from there on is. -/
def Smeared (x w y : Nat) : Prop :=
  ∀ i, y.testBit i = true ↔ ∃ j, j < w ∧ x.testBit (i + j) = true

theorem smeared_one (x : Nat) : Smeared x 1 x := by
  intro i
  constructor
  · intro h
    exact ⟨0, Nat.one_pos, h⟩
  · rintro ⟨j, hj, h⟩
    have hj0 : j = 0 := by omega
    rwa [hj0] at h

/-- One step doubles the number of bits looked at. -/
theorem Smeared.step {x w y : Nat} (h : Smeared x w y) : Smeared x (w + w) (y ||| y >>> w) := by
  intro i
  rw [Nat.testBit_or, Nat.testBit_shiftRight, Bool.or_eq_true, h i, h (w + i)]
  constructor
  · rintro (⟨j, hj, hx⟩ | ⟨j, hj, hx⟩)
    · exact ⟨j, by omega, hx⟩
    · refine ⟨w + j, by omega, ?_⟩
      rwa [show i + (w + j) = w + i + j by omega]
  · rintro ⟨j, hj, hx⟩
    rcases Nat.lt_or_ge j w with hlt | hge
    · exact Or.inl ⟨j, hlt, hx⟩
    · refine Or.inr ⟨j - w, by omega, ?_⟩
      rwa [show w + i + (j - w) = i + j by omega]

/-- When all bits have been looked at, all bits up to the highest one of `x` are set. -/
theorem Smeared.eq_pow {x w y : Nat} (h : Smeared x w y) (hx : x < 2 ^ w) :
    y = 2 ^ Nat.clog 2 (x + 1) - 1 := by
  apply Nat.eq_of_testBit_eq
  intro i
  have hbit : (∃ j, j < w ∧ x.testBit (i + j) = true) ↔ 2 ^ i ≤ x := by
    constructor
    · rintro ⟨j, -, hj⟩
      exact (Nat.pow_le_pow_right (by decide) (Nat.le_add_right i j)).trans
        (Nat.ge_two_pow_of_testBit hj)
    · intro hle
      obtain ⟨k, hk, hkx⟩ := Nat.exists_ge_and_testBit_of_ge_two_pow hle
      have hkw : k < w := (Nat.pow_lt_pow_iff_right (by decide : 1 < 2)).mp
        (Nat.lt_of_le_of_lt (Nat.ge_two_pow_of_testBit hkx) hx)
      exact ⟨k - i, by omega, by rwa [show i + (k - i) = k by omega]⟩
  rw [Bool.eq_iff_iff, h i, hbit, Nat.testBit_two_pow_sub_one, decide_eq_true_eq, ← Nat.not_le,
    Nat.clog_le_iff_le_pow (by decide)]
  omega

/-! ## Sizes -/

/-- The sizes of a growing array: the cells in use, the cells allocated, and how often it has been
moved. -/
structure Extent where
  size : Nat
  cap : Nat
  moves : Nat
  deriving DecidableEq, Repr

namespace Extent

/-- Nothing is allocated. -/
def zero : Extent := ⟨0, 0, 0⟩

/-- `n` more cells do not fit, with one to spare. -/
def Grows (s : Extent) (n : Nat) : Prop := s.cap ≤ s.size + n

instance (s : Extent) (n : Nat) : Decidable (s.Grows n) := inferInstanceAs (Decidable (_ ≤ _))

/-- `n` cells are added; if they do not fit, the array is moved to a place with a power of two of
cells, enough for the old allocation and the new cells. -/
def add (s : Extent) (n : Nat) : Extent :=
  if s.Grows n then ⟨s.size + n, 2 ^ Nat.clog 2 (s.cap + n + 1), s.moves + 1⟩
  else ⟨s.size + n, s.cap, s.moves⟩

/-- Cells are added again and again. -/
def run (ns : List Nat) : Extent := ns.foldl add zero

/-- If the array has to be moved, it is for a place of at most `bound` cells. -/
def Room (bound : Nat) (s : Extent) (n : Nat) : Prop := s.Grows n → s.cap + n + 1 ≤ bound

theorem add_of_grows {s : Extent} {n : Nat} (h : s.Grows n) :
    s.add n = ⟨s.size + n, 2 ^ Nat.clog 2 (s.cap + n + 1), s.moves + 1⟩ := if_pos h

theorem add_of_fits {s : Extent} {n : Nat} (h : ¬ s.Grows n) :
    s.add n = ⟨s.size + n, s.cap, s.moves⟩ := if_neg h

@[simp] theorem add_size (s : Extent) (n : Nat) : (s.add n).size = s.size + n := by
  rw [add]
  split <;> rfl

/-- There is a cell to spare afterwards. -/
theorem add_lt {s : Extent} (h : s.size ≤ s.cap) (n : Nat) : (s.add n).size < (s.add n).cap := by
  by_cases hg : s.Grows n
  · have hpow := Nat.le_pow_clog (by decide : 1 < 2) (s.cap + n + 1)
    rw [add_of_grows hg]
    show s.size + n < 2 ^ Nat.clog 2 (s.cap + n + 1)
    omega
  · rw [add_of_fits hg]
    exact Nat.not_le.mp hg

/-- With room, the allocation stays below a power of two. -/
theorem add_cap_le {k : Nat} {s : Extent} {n : Nat} (h : s.cap ≤ 2 ^ k) (hroom : s.Room (2 ^ k) n) :
    (s.add n).cap ≤ 2 ^ k := by
  by_cases hg : s.Grows n
  · rw [add_of_grows hg]
    apply Nat.pow_le_pow_right (by decide)
    rw [Nat.clog_le_iff_le_pow (by decide)]
    exact hroom hg
  · rw [add_of_fits hg]
    exact h

theorem run_concat (ns : List Nat) (n : Nat) : run (ns ++ [n]) = (run ns).add n := by
  rw [run, List.foldl_append]
  rfl

theorem run_size (ns : List Nat) : (run ns).size = ns.sum := by
  induction ns using List.reverseRecOn with
  | nil => rfl
  | append_singleton ns n ih => rw [run_concat, add_size, ih, List.sum_append, List.sum_singleton]

/-- In all, less than half of the bound: then there is room at every step. -/
theorem atEach_room_of_sum {bound : Nat} {ns : List Nat} (h : 2 * ns.sum < bound) :
    AtEach (fun pre => Room bound (run pre)) ns := by
  rintro pre n post rfl hg
  have hg' : (run pre).cap ≤ pre.sum + n := by
    rw [← run_size]
    exact hg
  rw [List.sum_append, List.sum_cons] at h
  omega

/-- Something that has been allocated has been moved to its place. -/
theorem run_moves_pos {ns : List Nat} (h : ns ≠ []) : 0 < (run ns).moves := by
  induction ns using List.reverseRecOn with
  | nil => exact absurd rfl h
  | append_singleton ns n ih =>
      rw [run_concat]
      by_cases hg : (run ns).Grows n
      · rw [add_of_grows hg]
        exact Nat.succ_pos _
      · rw [add_of_fits hg]
        refine ih ?_
        rintro rfl
        exact hg (Nat.zero_le _)

end Extent

end CSearch
