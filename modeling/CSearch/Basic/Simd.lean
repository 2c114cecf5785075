import CSearch.Basic.Memory
import Mathlib.Data.UInt

set_option autoImplicit false

/-! # 128-bit vector registers

A register is sixteen bytes, byte `0` the least significant one. The instructions below are
defined byte by byte, as the processor manual has them, or on the four 32-bit lanes where they
compute with lanes. `lane32` and `lane16` read a lane; the lemmas give the lanes of a result in
terms of the lanes of the operands.
-/

namespace CSearch

/-- A 128-bit register. -/
abbrev M128i : Type := Fin 16 → UInt8

namespace M128i

/-- The 16-bit lane `i`, as a number. -/
def lane16 (v : M128i) (i : Fin 8) : Nat :=
  (v ⟨2 * i, by omega⟩).toNat + 256 * (v ⟨2 * i + 1, by omega⟩).toNat

/-- The 32-bit lane `i`. -/
def lane32 (v : M128i) (i : Fin 4) : UInt32 :=
  UInt32.ofNat (v.lane16 ⟨2 * i, by omega⟩ + 65536 * v.lane16 ⟨2 * i + 1, by omega⟩)

/-- The register with the given 32-bit lanes. -/
def ofLanes (f : Fin 4 → UInt32) : M128i :=
  fun b => UInt8.ofNat ((f ⟨b / 4, by omega⟩).toNat / 256 ^ (b.val % 4))

/-! ## Instructions -/

/-- `_mm_loadu_si128`: sixteen bytes from memory. -/
def mmLoaduSi128 (m : Mem) (p : Nat) : M128i := fun b => m (p + b)

/-- `_mm_lddqu_si128`: sixteen bytes from memory. -/
def mmLddquSi128 (m : Mem) (p : Nat) : M128i := fun b => m (p + b)

/-- `_mm_loadl_epi64`: eight bytes from memory, the upper half is zero. -/
def mmLoadlEpi64 (m : Mem) (p : Nat) : M128i := fun b => if b.val < 8 then m (p + b) else 0

/-- `_mm_set1_epi32`: the same value in every 32-bit lane. -/
def mmSet1Epi32 (x : UInt32) : M128i := ofLanes (fun _ => x)

/-- `_mm_add_epi32`: addition in every 32-bit lane. -/
def mmAddEpi32 (a b : M128i) : M128i := ofLanes (fun i => a.lane32 i + b.lane32 i)

/-- `_mm_slli_si128`: shift by `n` bytes towards the most significant end. -/
def mmSlliSi128 (v : M128i) (n : Nat) : M128i :=
  fun b => if b.val < n then 0 else v ⟨b.val - n, by omega⟩

/-- `_mm_shuffle_epi8`: byte `b` of the result is chosen by control byte `b`. -/
def mmShuffleEpi8 (v ctl : M128i) : M128i :=
  fun b => if 128 ≤ (ctl b).toNat then 0 else v ⟨(ctl b).toNat % 16, Nat.mod_lt _ (by omega)⟩

/-- `_mm_shuffle_epi32`: lane `i` of the result is chosen by two bits of `imm`. -/
def mmShuffleEpi32 (v : M128i) (imm : Nat) : M128i :=
  ofLanes (fun i => v.lane32 ⟨imm / 4 ^ i.val % 4, Nat.mod_lt _ (by omega)⟩)

/-- `_mm_cvtepu8_epi16`: the lower eight bytes, each in a 16-bit lane of its own. -/
def mmCvtepu8Epi16 (v : M128i) : M128i :=
  fun b => if b.val % 2 = 0 then v ⟨b.val / 2, by omega⟩ else 0

/-- `_mm_cvtepu16_epi32`: the lower four 16-bit lanes, each in a 32-bit lane of its own. -/
def mmCvtepu16Epi32 (v : M128i) : M128i :=
  fun b => if b.val % 4 < 2 then v ⟨2 * (b.val / 4) + b.val % 4, by omega⟩ else 0

/-- `_mm_storeu_si128` to an array of 32-bit values: the four lanes. -/
def mmStoreuSi128 (v : M128i) : List UInt32 := [v.lane32 0, v.lane32 1, v.lane32 2, v.lane32 3]

/-! ## Lanes -/

theorem lane16_lt (v : M128i) (i : Fin 8) : v.lane16 i < 65536 := by
  have h0 := UInt8.toNat_lt (v ⟨2 * i, by omega⟩)
  have h1 := UInt8.toNat_lt (v ⟨2 * i + 1, by omega⟩)
  unfold lane16
  omega

theorem lane32_toNat (v : M128i) (i : Fin 4) :
    (v.lane32 i).toNat = v.lane16 ⟨2 * i, by omega⟩ + 65536 * v.lane16 ⟨2 * i + 1, by omega⟩ := by
  have h0 := v.lane16_lt ⟨2 * i, by omega⟩
  have h1 := v.lane16_lt ⟨2 * i + 1, by omega⟩
  rw [lane32, UInt32.toNat_ofNat', Nat.mod_eq_of_lt (by omega)]

theorem lane16_ofLanes (f : Fin 4 → UInt32) (i : Fin 8) :
    (ofLanes f).lane16 i = (f ⟨i / 2, by omega⟩).toNat / 65536 ^ (i.val % 2) % 65536 := by
  fin_cases i <;> simp only [lane16, ofLanes, UInt8.toNat_ofNat'] <;> norm_num <;> omega

@[simp] theorem lane32_ofLanes (f : Fin 4 → UInt32) (i : Fin 4) : (ofLanes f).lane32 i = f i := by
  have hf : (f i).toNat < 2 ^ 32 := UInt32.toNat_lt _
  apply UInt32.toNat_inj.mp
  rw [lane32_toNat, lane16_ofLanes, lane16_ofLanes]
  have h0 : (⟨2 * i.val / 2, by omega⟩ : Fin 4) = i := Fin.ext (by simp)
  have h1 : (⟨(2 * i.val + 1) / 2, by omega⟩ : Fin 4) = i := Fin.ext (by simp; omega)
  simp only [h0, h1, show 2 * i.val % 2 = 0 by omega, show (2 * i.val + 1) % 2 = 1 by omega]
  omega

@[simp] theorem lane32_set1 (x : UInt32) (i : Fin 4) : (mmSet1Epi32 x).lane32 i = x :=
  lane32_ofLanes _ i

@[simp] theorem lane32_add (a b : M128i) (i : Fin 4) :
    (mmAddEpi32 a b).lane32 i = a.lane32 i + b.lane32 i :=
  lane32_ofLanes _ i

/-- Shuffling with control `0xFF` puts the top lane everywhere. -/
@[simp] theorem lane32_broadcast (v : M128i) (i : Fin 4) :
    (mmShuffleEpi32 v 0xFF).lane32 i = v.lane32 3 := by
  rw [mmShuffleEpi32, lane32_ofLanes]
  fin_cases i <;> rfl

theorem lane16_slli2 (v : M128i) (i : Fin 8) :
    (mmSlliSi128 v 2).lane16 i = if h : i.val = 0 then 0 else v.lane16 ⟨i - 1, by omega⟩ := by
  fin_cases i <;> rfl

theorem lane16_slli4 (v : M128i) (i : Fin 8) :
    (mmSlliSi128 v 4).lane16 i = if h : i.val < 2 then 0 else v.lane16 ⟨i - 2, by omega⟩ := by
  fin_cases i <;> rfl

theorem lane32_slli4 (v : M128i) (i : Fin 4) :
    (mmSlliSi128 v 4).lane32 i = if h : i.val = 0 then 0 else v.lane32 ⟨i - 1, by omega⟩ := by
  fin_cases i <;> rfl

theorem lane32_slli8 (v : M128i) (i : Fin 4) :
    (mmSlliSi128 v 8).lane32 i = if h : i.val < 2 then 0 else v.lane32 ⟨i - 2, by omega⟩ := by
  fin_cases i <;> rfl

/-- As long as no 16-bit lane overflows, 32-bit addition adds the 16-bit lanes. -/
theorem lane16_add (a b : M128i) (h : ∀ j, a.lane16 j + b.lane16 j < 65536) (i : Fin 8) :
    (mmAddEpi32 a b).lane16 i = a.lane16 i + b.lane16 i := by
  have key : ∀ j : Fin 4, (a.lane32 j + b.lane32 j).toNat
      = (a.lane16 ⟨2 * j, by omega⟩ + b.lane16 ⟨2 * j, by omega⟩)
        + 65536 * (a.lane16 ⟨2 * j + 1, by omega⟩ + b.lane16 ⟨2 * j + 1, by omega⟩) := by
    intro j
    have h0 := h ⟨2 * j, by omega⟩
    have h1 := h ⟨2 * j + 1, by omega⟩
    rw [UInt32.toNat_add, lane32_toNat, lane32_toNat]
    omega
  rw [mmAddEpi32, lane16_ofLanes, key]
  have h0 := h ⟨2 * (i.val / 2), by omega⟩
  have h1 := h ⟨2 * (i.val / 2) + 1, by omega⟩
  rcases Nat.mod_two_eq_zero_or_one i.val with hi | hi
  · have he : (⟨2 * (i.val / 2), by omega⟩ : Fin 8) = i := Fin.ext (by simp; omega)
    rw [he] at h0
    simp only [hi, he]
    omega
  · have he : (⟨2 * (i.val / 2) + 1, by omega⟩ : Fin 8) = i := Fin.ext (by simp; omega)
    rw [he] at h1
    simp only [hi, he]
    omega

theorem lane16_cvtepu8 (v : M128i) (i : Fin 8) :
    (mmCvtepu8Epi16 v).lane16 i = (v ⟨i, by omega⟩).toNat := by
  fin_cases i <;> rfl

theorem lane32_cvtepu16 (v : M128i) (i : Fin 4) :
    (mmCvtepu16Epi32 v).lane32 i = UInt32.ofNat (v.lane16 ⟨i, by omega⟩) := by
  fin_cases i <;> rfl

end M128i

end CSearch
