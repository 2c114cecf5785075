import CSearch.Basic.Fault

set_option autoImplicit false

/-! # `GumboVector` of `vector.c`

A vector of pointers, with an array that is doubled when it is full. The array is the list of its
cells. `length` and `capacity` are `unsigned int`, so with `2^31` elements the doubled capacity would
be smaller than the array that is copied. An index is returned as an `int`.

The vector stands for the list of the elements in use (`Rep`). Each function does on this list what its
name says, and fails an assertion for indices outside of it. If the allocator returns `NULL`, this is
used, or `gumbo_vector_add` fails its assertion about it; `gumbo_vector_insert_at` has none
(`vector_refines`).
-/

namespace CSearch.Gumbo

/-! ## The functions of the source -/

/-- `GumboVector`. `heap` is what the next allocations return. -/
structure GumboVector (α : Type) where
  data : Option (List α)
  length : UInt32
  capacity : UInt32
  heap : Allocator (Nat → α)

namespace GumboVector

variable {α : Type}

/-- `gumbo_vector_init`. -/
def init (heap : Allocator (Nat → α)) (initialCapacity : UInt64) : GumboVector α :=
  if 0 < initialCapacity then
    -- `sizeof(void*) * initial_capacity` bytes
    ⟨Cells.allocate heap ((8 * initialCapacity).toNat / 8), 0, initialCapacity.toUInt32, heap.next⟩
  else ⟨none, 0, initialCapacity.toUInt32, heap⟩

/-- `enlarge_vector_if_full`. -/
def enlargeVectorIfFull (v : GumboVector α) : Except Fault (GumboVector α) :=
  if v.capacity ≤ v.length then
    if v.capacity ≠ 0 then do
      let capacity := v.capacity * 2
      let temp := Cells.allocate v.heap capacity.toNat
      let temp ← Cells.copy temp v.data v.capacity.toNat
      .ok ⟨temp, v.length, capacity, v.heap.next⟩
    else .ok ⟨Cells.allocate v.heap 2, v.length, 2, v.heap.next⟩
  else .ok v

/-- `gumbo_vector_add`. -/
def add (v : GumboVector α) (element : α) : Except Fault (GumboVector α) := do
  let v ← v.enlargeVectorIfFull
  if v.data.isSome ∧ v.length < v.capacity then
    let data ← Cells.set v.data v.length.toNat element
    .ok { v with data := data, length := v.length + 1 }
  else .error .assertion

/-- `gumbo_vector_pop`. -/
def pop (v : GumboVector α) : Except Fault (Option α × GumboVector α) :=
  if v.length = 0 then .ok (none, v)
  else do
    let length := v.length - 1
    let x ← Cells.get v.data length.toNat
    .ok (some x, { v with length := length })

/-- The loop of `gumbo_vector_index_of`, with `n` rounds to go. -/
def indexOfFrom [DecidableEq α] (data : Option (List α)) (element : α) :
    Nat → UInt32 → Except Fault Int
  | 0, _ => .ok (-1)
  | n + 1, i => do
      let x ← Cells.get data i.toNat
      if x = element then .ok ((i.toNat : Int).bmod (2 ^ 32))
      else indexOfFrom data element n (i + 1)

/-- `gumbo_vector_index_of`. -/
def indexOf [DecidableEq α] (v : GumboVector α) (element : α) : Except Fault Int :=
  indexOfFrom v.data element v.length.toNat 0

/-- `gumbo_vector_insert_at`. -/
def insertAt (v : GumboVector α) (element : α) (index : UInt32) : Except Fault (GumboVector α) :=
  if index ≤ v.length then do
    let v ← v.enlargeVectorIfFull
    let length := v.length + 1
    let data ← Cells.move v.data (index + 1).toNat index.toNat (length - index - 1).toNat
    let data ← Cells.set data index.toNat element
    .ok { v with data := data, length := length }
  else .error .assertion

/-- `gumbo_vector_remove_at`. -/
def removeAt (v : GumboVector α) (index : UInt32) : Except Fault (α × GumboVector α) :=
  if index < v.length then do
    let result ← Cells.get v.data index.toNat
    let data ← Cells.move v.data index.toNat (index + 1).toNat (v.length - index - 1).toNat
    .ok (result, { v with data := data, length := v.length - 1 })
  else .error .assertion

/-- `gumbo_vector_remove`. -/
def remove [DecidableEq α] (v : GumboVector α) (node : α) : Except Fault (GumboVector α) := do
  let index ← v.indexOf node
  if index = -1 then .ok v
  else
    let r ← v.removeAt (UInt32.ofInt index)
    .ok r.2

end GumboVector

/-- Calls of these functions. -/
inductive VectorOp (α : Type) where
  | add (element : α)
  | pop
  | indexOf (element : α)
  | insertAt (element : α) (index : UInt32)
  | remove (node : α)
  | removeAt (index : UInt32)

/-- What a call returns. -/
inductive VectorResult (α : Type) where
  | void
  | element (x : Option α)
  | index (i : Int)

namespace VectorOp

variable {α : Type} [DecidableEq α]

def run (v : GumboVector α) : VectorOp α → Except Fault (VectorResult α × GumboVector α)
  | add element => do
      let v ← v.add element
      .ok (.void, v)
  | pop => do
      let r ← v.pop
      .ok (.element r.1, r.2)
  | indexOf element => do
      let i ← v.indexOf element
      .ok (.index i, v)
  | insertAt element index => do
      let v ← v.insertAt element index
      .ok (.void, v)
  | remove node => do
      let v ← v.remove node
      .ok (.void, v)
  | removeAt index => do
      let r ← v.removeAt index
      .ok (.element (some r.1), r.2)

/-- A position, and `-1` for none. -/
def position : Option Nat → Int
  | some i => i
  | none => -1

/-- The same on lists. -/
def apply (xs : List α) : VectorOp α → Except Fault (VectorResult α × List α)
  | add element => .ok (.void, xs ++ [element])
  | pop => .ok (.element xs.getLast?, xs.dropLast)
  | indexOf element => .ok (.index (position (xs.idxOf? element)), xs)
  | insertAt element index =>
      if index.toNat ≤ xs.length then .ok (.void, xs.insertIdx index.toNat element)
      else .error .assertion
  | remove node => .ok (.void, xs.erase node)
  | removeAt index =>
      if index.toNat < xs.length then .ok (.element xs[index.toNat]?, xs.eraseIdx index.toNat)
      else .error .assertion

end VectorOp

/-- Calls in order, with what they return. -/
def runAll {σ ω ρ : Type} (run : σ → ω → Except Fault (ρ × σ)) : List ω → σ → Except Fault (List ρ)
  | [], _ => .ok []
  | op :: ops, s => do
      let r ← run s op
      let rs ← runAll run ops r.2
      .ok (r.1 :: rs)

/-! ## Vectors and lists -/

namespace GumboVector

variable {α : Type}

/-- **A vector with the elements `xs`.** `bad` is that the allocator has returned `NULL`. -/
structure Rep (bad : Prop) (v : GumboVector α) (xs : List α) : Prop where
  length : v.length.toNat = xs.length
  data : (∃ spare, v.data = some (xs ++ spare) ∧ v.capacity.toNat ≤ (xs ++ spare).length)
    ∨ v.data = none ∧ xs = [] ∧ (v.capacity = 0 ∨ bad)
  room : xs.length ≤ v.capacity.toNat
  heap : ∀ k, v.heap k = none → bad

/-- The faults that a bad allocator is to blame for. -/
def Blamed (bad : Prop) (e : Fault) : Prop := (e = .null ∨ e = .assertion) ∧ bad

/-- A new array, or `NULL`. -/
theorem allocate_cases {bad : Prop} {heap : Allocator (Nat → α)} (hheap : ∀ k, heap k = none → bad)
    (n : Nat) :
    (∃ a, Cells.allocate heap n = some a ∧ a.length = n) ∨ Cells.allocate heap n = none ∧ bad := by
  cases hfresh : heap 0 with
  | none =>
      refine Or.inr ⟨?_, hheap 0 hfresh⟩
      rw [Cells.allocate, hfresh]
      rfl
  | some fresh => exact Or.inl (Cells.exists_of_allocate hfresh n)

theorem init_rep {bad : Prop} {heap : Allocator (Nat → α)} (hheap : ∀ k, heap k = none → bad)
    (initialCapacity : UInt64) : Rep bad (init heap initialCapacity) [] := by
  rw [init]
  split
  · refine ⟨rfl, ?_, Nat.zero_le _, fun k => hheap (k + 1)⟩
    rcases allocate_cases hheap ((8 * initialCapacity).toNat / 8) with ⟨a, ha, hlen⟩ | ⟨hnull, hbad⟩
    · refine Or.inl ⟨a, ha, ?_⟩
      rw [List.nil_append, hlen, UInt64.toNat_toUInt32, UInt64.toNat_mul]
      show _ ≤ 8 * initialCapacity.toNat % 2 ^ 64 / 8
      omega
    · exact Or.inr ⟨hnull, rfl, Or.inr hbad⟩
  · rename_i hzero
    have h0 : initialCapacity = 0 := by
      rw [UInt64.lt_iff_toNat_lt] at hzero
      exact UInt64.toNat_inj.mp (Nat.le_zero.mp (Nat.not_lt.mp hzero))
    subst h0
    exact ⟨rfl, Or.inr ⟨rfl, rfl, Or.inl rfl⟩, Nat.zero_le _, hheap⟩

section

variable {bad : Prop} {v : GumboVector α} {xs : List α}

theorem toNat_capacity_double (hsmall : xs.length < 2 ^ 31) (hcap : v.capacity.toNat = xs.length) :
    (v.capacity * 2).toNat = xs.length * 2 := by
  rw [UInt32.toNat_mul, hcap]
  exact Nat.mod_eq_of_lt (show xs.length * 2 < 2 ^ 32 by omega)

/-- A full array with elements is copied to one twice as large. -/
theorem copy_follows (h : Rep bad v xs) (hsmall : xs.length < 2 ^ 31)
    (hcap : v.capacity.toNat = xs.length) (hzero : v.capacity ≠ 0) :
    Follows (Blamed bad) (fun p _ => ∃ spare, p = some (xs ++ spare)
        ∧ (v.capacity * 2).toNat = (xs ++ spare).length)
      (Cells.copy (Cells.allocate v.heap (v.capacity * 2).toNat) v.data v.capacity.toNat) (.ok ()) := by
  have hdouble := toNat_capacity_double hsmall hcap
  rcases h.data with ⟨spare, hdata, -⟩ | ⟨hnull, -, hbad⟩
  · rcases allocate_cases h.heap (v.capacity * 2).toNat with ⟨a, ha, hlen⟩ | ⟨hnull, hbad⟩
    · have hroom : xs.length ≤ a.length := by omega
      rw [ha, hdata, hcap, Cells.copy_some (by rw [List.length_append]; omega) hroom, List.take_left]
      refine .ok ⟨_, rfl, ?_⟩
      rw [List.length_append, List.length_drop]
      omega
    · rw [hnull, hdata]
      exact .blamed ⟨Or.inl rfl, hbad⟩ _
  · rw [hnull]
    exact .blamed ⟨Or.inl rfl, hbad.resolve_left hzero⟩ _

theorem enlarge_follows (h : Rep bad v xs) (hsmall : xs.length < 2 ^ 31) :
    Follows (Blamed bad) (fun v' _ => Rep bad v' xs ∧ xs.length < v'.capacity.toNat)
      v.enlargeVectorIfFull (.ok ()) := by
  rw [enlargeVectorIfFull]
  by_cases hfull : v.capacity ≤ v.length
  · rw [if_pos hfull]
    rw [UInt32.le_iff_toNat_le, h.length] at hfull
    have hcap : v.capacity.toNat = xs.length := Nat.le_antisymm hfull h.room
    by_cases hzero : v.capacity ≠ 0
    · have hpos : 0 < xs.length := by
        rw [← hcap]
        exact Nat.pos_of_ne_zero fun h0 => hzero (UInt32.toNat_inj.mp h0)
      have hdouble := toNat_capacity_double hsmall hcap
      rw [if_pos hzero]
      refine (copy_follows h hsmall hcap hzero).bind_ok ?_
      rintro temp ⟨spare, htemp, hlen⟩
      refine .ok ⟨⟨h.length, Or.inl ⟨spare, htemp, Nat.le_of_eq hlen⟩, ?_, fun k => h.heap (k + 1)⟩, ?_⟩
      · show xs.length ≤ (v.capacity * 2).toNat
        omega
      · show xs.length < (v.capacity * 2).toNat
        omega
    · rw [if_neg hzero]
      rw [ne_eq, not_not] at hzero
      have hnil : xs = [] := List.length_eq_zero_iff.mp (by rw [← hcap, hzero]; rfl)
      subst hnil
      refine .ok ⟨⟨h.length, ?_, Nat.zero_le _, fun k => h.heap (k + 1)⟩, Nat.zero_lt_two⟩
      rcases allocate_cases h.heap 2 with ⟨a, ha, hlen⟩ | ⟨hnull, hbad⟩
      · exact Or.inl ⟨a, ha, Nat.le_of_eq hlen.symm⟩
      · exact Or.inr ⟨hnull, rfl, Or.inr hbad⟩
  · rw [if_neg hfull]
    rw [UInt32.le_iff_toNat_le, h.length, Nat.not_le] at hfull
    exact .ok ⟨h, hfull⟩

/-- With room for one more there is a cell behind the elements. -/
theorem Rep.exists_spare (h : Rep bad v xs) (hroom : xs.length < v.capacity.toNat) :
    (∃ y spare, v.data = some (xs ++ y :: spare) ∧ v.capacity.toNat ≤ (xs ++ y :: spare).length)
      ∨ v.data = none ∧ bad := by
  rcases h.data with ⟨spare, hdata, hcap⟩ | ⟨hnull, -, hzero | hbad⟩
  · cases spare with
    | nil =>
        rw [List.append_nil] at hcap
        omega
    | cons y spare => exact Or.inl ⟨y, spare, hdata, hcap⟩
  · rw [hzero] at hroom
    exact absurd hroom (Nat.not_lt_zero _)
  · exact Or.inr ⟨hnull, hbad⟩

/-- If there are elements, there is an array. -/
theorem Rep.exists_data (h : Rep bad v xs) (hne : xs ≠ []) :
    ∃ spare, v.data = some (xs ++ spare) ∧ v.capacity.toNat ≤ (xs ++ spare).length :=
  h.data.resolve_right (fun hnull => hne hnull.2.1)

theorem Rep.length_succ (h : Rep bad v xs) (hsmall : xs.length < 2 ^ 31) :
    (v.length + 1).toNat = xs.length + 1 := by
  rw [UInt32.toNat_add, h.length]
  exact Nat.mod_eq_of_lt (show xs.length + 1 < 2 ^ 32 by omega)

theorem Rep.length_pred (h : Rep bad v xs) (hne : xs ≠ []) :
    (v.length - 1).toNat = xs.length - 1 := by
  have hpos := List.length_pos_iff.mpr hne
  rw [UInt32.toNat_sub_of_le, h.length]
  · rfl
  · rw [UInt32.le_iff_toNat_le, h.length]
    exact hpos

/-- One element more. -/
theorem Rep.grown (h : Rep bad v xs) (hsmall : xs.length < 2 ^ 31)
    (hroom : xs.length < v.capacity.toNat) {ys spare : List α} (hys : ys.length = xs.length + 1)
    (hcap : v.capacity.toNat ≤ xs.length + 1 + spare.length) :
    Rep bad { v with data := some (ys ++ spare), length := v.length + 1 } ys := by
  refine ⟨?_, Or.inl ⟨spare, rfl, ?_⟩, ?_, h.heap⟩
  · rw [hys]
    exact h.length_succ hsmall
  · rw [List.length_append, hys]
    exact hcap
  · rw [hys]
    exact hroom

/-- One element less. -/
theorem Rep.shrunk (h : Rep bad v xs) (hne : xs ≠ []) {ys spare : List α}
    (hys : ys.length = xs.length - 1) (hcap : v.capacity.toNat ≤ xs.length - 1 + spare.length) :
    Rep bad { v with data := some (ys ++ spare), length := v.length - 1 } ys := by
  refine ⟨?_, Or.inl ⟨spare, rfl, ?_⟩, ?_, h.heap⟩
  · rw [hys]
    exact h.length_pred hne
  · rw [List.length_append, hys]
    exact hcap
  · rw [hys]
    exact Nat.le_trans (Nat.sub_le _ _) h.room

theorem add_follows (h : Rep bad v xs) (hsmall : xs.length < 2 ^ 31) (element : α) :
    Follows (Blamed bad) (Rep bad) (v.add element) (.ok (xs ++ [element])) := by
  rw [add]
  refine (enlarge_follows h hsmall).bind_ok ?_
  rintro v₁ ⟨hrep, hroom⟩
  rcases hrep.exists_spare hroom with ⟨y, spare, hdata, hcap⟩ | ⟨hnull, hbad⟩
  · have hlt : v₁.data.isSome ∧ v₁.length < v₁.capacity := by
      rw [hdata, UInt32.lt_iff_toNat_lt, hrep.length]
      exact ⟨rfl, hroom⟩
    have hset : (xs ++ y :: spare).set xs.length element = xs ++ [element] ++ spare := by
      rw [List.set_append_right _ _ (Nat.le_refl _), Nat.sub_self]
      simp
    rw [List.length_append, List.length_cons] at hcap
    rw [if_pos hlt, hdata, hrep.length, Cells.set_some (by simp), hset]
    exact .ok (hrep.grown hsmall hroom List.length_append (by omega))
  · rw [if_neg (fun hlt => absurd hlt.1 (by rw [hnull]; exact Bool.false_ne_true))]
    exact .blamed ⟨Or.inr rfl, hbad⟩ _

theorem pop_follows (h : Rep bad v xs) :
    Follows (Blamed bad) (fun r r' => r.1 = r'.1 ∧ Rep bad r.2 r'.2) v.pop
      (.ok (xs.getLast?, xs.dropLast)) := by
  have hiff : v.length = 0 ↔ xs = [] := by
    rw [← List.length_eq_zero_iff, ← h.length]
    exact UInt32.toNat_inj.symm
  rw [pop]
  by_cases hnil : xs = []
  · rw [if_pos (hiff.mpr hnil)]
    subst hnil
    exact .ok ⟨rfl, h⟩
  · obtain ⟨spare, hdata, hcap⟩ := h.exists_data hnil
    have hpos := List.length_pos_iff.mpr hnil
    have hlast : (xs ++ spare)[xs.length - 1]? = some (xs.getLast hnil) := by
      rw [List.getElem?_append_left (by omega), ← List.getLast?_eq_getElem?,
        List.getLast?_eq_some_getLast hnil]
    rw [if_neg (fun h0 => hnil (hiff.mp h0))]
    simp only [h.length_pred hnil, hdata, Cells.get_some hlast]
    have hsplit : xs.dropLast ++ ([xs.getLast hnil] ++ spare) = xs ++ spare := by
      rw [← List.append_assoc, List.dropLast_append_getLast]
    rw [List.length_append] at hcap
    have hrep := h.shrunk hnil List.length_dropLast
      (show v.capacity.toNat ≤ xs.length - 1 + ([xs.getLast hnil] ++ spare).length by
        rw [List.length_append, List.length_singleton]; omega)
    rw [hsplit] at hrep
    exact .ok ⟨(List.getLast?_eq_some_getLast hnil).symm, hrep⟩

theorem toNat_add_one_of_lt {m index : UInt32} (h : index.toNat < m.toNat) :
    (index + 1).toNat = index.toNat + 1 := by
  have hm := m.toNat_lt
  rw [UInt32.toNat_add]
  exact Nat.mod_eq_of_lt (show index.toNat + 1 < 2 ^ 32 by omega)

/-- The number of elements behind an index. -/
theorem toNat_sub_sub_one {m index : UInt32} (h : index.toNat + 1 ≤ m.toNat) :
    (m - index - 1).toNat = m.toNat - index.toNat - 1 := by
  have hsub : (m - index).toNat = m.toNat - index.toNat :=
    UInt32.toNat_sub_of_le _ _ (UInt32.le_iff_toNat_le.mpr (by omega))
  have hone : (1 : UInt32) ≤ m - index := by
    rw [UInt32.le_iff_toNat_le, hsub]
    show 1 ≤ _
    omega
  rw [UInt32.toNat_sub_of_le _ _ hone, hsub]
  rfl

theorem insertAt_follows (h : Rep bad v xs) (hsmall : xs.length < 2 ^ 31) (element : α)
    {index : UInt32} (hindex : index.toNat ≤ xs.length) :
    Follows (Blamed bad) (Rep bad) (v.insertAt element index)
      (.ok (xs.insertIdx index.toNat element)) := by
  have hle : index ≤ v.length := by
    rw [UInt32.le_iff_toNat_le, h.length]
    exact hindex
  rw [insertAt, if_pos hle]
  refine (enlarge_follows h hsmall).bind_ok ?_
  rintro v₁ ⟨hrep, hroom⟩
  rcases hrep.exists_spare hroom with ⟨y, spare, hdata, hcap⟩ | ⟨hnull, hbad⟩
  · have hlen := hrep.length_succ hsmall
    have hnext : (index + 1).toNat = index.toNat + 1 :=
      toNat_add_one_of_lt (m := v₁.length + 1) (by omega)
    have hcount : (v₁.length + 1 - index - 1).toNat = xs.length - index.toNat := by
      rw [toNat_sub_sub_one (by omega), hlen]
      omega
    obtain ⟨a, hmove, hset⟩ := Cells.move_up hindex element y spare
    have hmemmove : Cells.move v₁.data (index + 1).toNat index.toNat
        (v₁.length + 1 - index - 1).toNat = .ok (some a) := by
      rw [hnext, hcount, hdata]
      exact hmove
    rw [List.length_append, List.length_cons] at hcap
    show Follows _ _ (Cells.move _ _ _ _ >>= _) _
    rw [hmemmove]
    show Follows _ _ (Cells.set _ _ _ >>= _) _
    rw [hset]
    exact .ok (hrep.grown hsmall hroom (List.length_insertIdx_of_le_length hindex _) (by omega))
  · rw [hnull]
    exact .blamed ⟨Or.inl rfl, hbad⟩ _

theorem removeAt_follows (h : Rep bad v xs) (index : UInt32) (hindex : index.toNat < xs.length) :
    Follows (Blamed bad) (fun r r' => some r.1 = r'.1 ∧ Rep bad r.2 r'.2) (v.removeAt index)
      (.ok (xs[index.toNat]?, xs.eraseIdx index.toNat)) := by
  have hne : xs ≠ [] := List.ne_nil_of_length_pos (by omega)
  obtain ⟨spare, hdata, hcap⟩ := h.exists_data hne
  have hlt : index < v.length := by
    rw [UInt32.lt_iff_toNat_lt, h.length]
    exact hindex
  have hcount : (v.length - index - 1).toNat = xs.length - index.toNat - 1 := by
    rw [toNat_sub_sub_one (by rw [h.length]; omega), h.length]
  have hx : xs[index.toNat]? = some xs[index.toNat] := List.getElem?_eq_getElem hindex
  have hget : Cells.get v.data index.toNat = .ok xs[index.toNat] := by
    rw [hdata]
    exact Cells.get_some (by rw [List.getElem?_append_left hindex, hx])
  obtain ⟨y, hmove⟩ := Cells.move_down hindex spare
  have hmemmove : Cells.move v.data index.toNat (index + 1).toNat (v.length - index - 1).toNat
      = .ok (some (xs.eraseIdx index.toNat ++ y :: spare)) := by
    rw [toNat_add_one_of_lt (UInt32.lt_iff_toNat_lt.mp hlt), hcount, hdata]
    exact hmove
  rw [List.length_append] at hcap
  rw [removeAt, if_pos hlt, hget, hx]
  simp only [hmemmove]
  exact .ok ⟨rfl, h.shrunk hne (List.length_eraseIdx_of_lt hindex)
    (by rw [List.length_cons]; omega)⟩

section

variable [DecidableEq α]

theorem lt_length_of_idxOf? {element : α} {i : Nat} (h : xs.idxOf? element = some i) :
    i < xs.length := by
  rw [List.idxOf?, List.findIdx?_eq_some_iff_getElem] at h
  exact h.1

/-- The loop, with the elements `pre` behind it and `rest` to go. -/
theorem indexOfFrom_eq (element : α) (pre rest spare : List α)
    (hsmall : pre.length + rest.length < 2 ^ 31) {i : UInt32} (hi : i.toNat = pre.length) :
    indexOfFrom (some (pre ++ rest ++ spare)) element rest.length i
      = .ok (VectorOp.position ((rest.idxOf? element).map (fun j => pre.length + j))) := by
  induction rest generalizing pre i with
  | nil => rfl
  | cons x rest ih =>
      have hget : (pre ++ x :: rest ++ spare)[i.toNat]? = some x := by
        rw [hi, List.append_assoc, List.getElem?_append_right (Nat.le_refl _), Nat.sub_self]
        rfl
      rw [List.length_cons] at hsmall
      rw [List.length_cons, indexOfFrom, Cells.get_some hget, List.idxOf?_cons]
      by_cases hx : x = element
      · rw [if_pos (beq_iff_eq.mpr hx)]
        have hmod : (i.toNat : Int).bmod (2 ^ 32) = i.toNat := Int.bmod_eq_of_le (by omega) (by omega)
        show (if x = element then _ else _) = _
        rw [if_pos hx, hmod, hi]
        rfl
      · have hnext : (i + 1).toNat = (pre ++ [x]).length := by
          rw [UInt32.toNat_add, hi, List.length_append]
          exact Nat.mod_eq_of_lt (show pre.length + 1 < 2 ^ 32 by omega)
        have hrest := ih (pre ++ [x]) (by rw [List.length_append, List.length_singleton]; omega) hnext
        rw [← List.append_cons] at hrest
        rw [if_neg (fun heq => hx (beq_iff_eq.mp heq))]
        show (if x = element then _ else _) = _
        rw [if_neg hx, hrest, Option.map_map]
        refine congrArg (fun f => Except.ok (VectorOp.position ((rest.idxOf? element).map f))) ?_
        funext j
        rw [List.length_append, List.length_singleton]
        exact Nat.add_right_comm _ _ _

theorem indexOf_eq (h : Rep bad v xs) (hsmall : xs.length < 2 ^ 31) (element : α) :
    v.indexOf element = .ok (VectorOp.position (xs.idxOf? element)) := by
  rw [indexOf, h.length]
  rcases h.data with ⟨spare, hdata, -⟩ | ⟨-, rfl, -⟩
  · have hloop := indexOfFrom_eq element [] xs spare (by rw [List.length_nil]; omega) (i := 0) rfl
    rw [List.nil_append] at hloop
    rw [hdata, hloop]
    cases xs.idxOf? element with
    | none => rfl
    | some i =>
        show Except.ok ((([] : List α).length + i : Nat) : Int) = _
        rw [List.length_nil, Nat.zero_add]
        rfl
  · rfl

theorem remove_eq {node : α} {index : Int} (h : v.indexOf node = .ok index) :
    v.remove node = if index = -1 then .ok v
      else v.removeAt (UInt32.ofInt index) >>= fun r => .ok r.2 := by
  rw [remove, h]
  rfl

theorem remove_follows (h : Rep bad v xs) (hsmall : xs.length < 2 ^ 31) (node : α) :
    Follows (Blamed bad) (Rep bad) (v.remove node) (.ok (xs.erase node)) := by
  rw [remove_eq (indexOf_eq h hsmall node), List.erase_eq_eraseIdx]
  cases hidx : xs.idxOf? node with
  | none => exact .ok h
  | some i =>
      have hi := lt_length_of_idxOf? hidx
      have hmod : ((i : Int) % 2 ^ 32).toNat = i := by omega
      have hnat : (UInt32.ofInt i).toNat = i := by
        rw [UInt32.ofInt, hmod]
        exact UInt32.toNat_ofNat_of_lt' (show i < 2 ^ 32 by omega)
      have hne : (i : Int) ≠ -1 := by omega
      have hremove := removeAt_follows h (UInt32.ofInt i) (by rw [hnat]; exact hi)
      rw [hnat] at hremove
      rw [VectorOp.position, if_neg hne]
      exact hremove.bind_ok (fun r hr => .ok hr.2)

end

end

end GumboVector

/-! ## Runs -/

namespace VectorOp

open GumboVector

variable {α : Type} [DecidableEq α] {bad : Prop}

theorem run_follows {v : GumboVector α} {xs : List α} (h : Rep bad v xs) (hsmall : xs.length < 2 ^ 31)
    (op : VectorOp α) :
    Follows (Blamed bad) (fun r r' => r.1 = r'.1 ∧ Rep bad r.2 r'.2) (op.run v) (op.apply xs) := by
  cases op with
  | add element => exact (add_follows h hsmall element).bind_ok (fun v' hv' => .ok ⟨rfl, hv'⟩)
  | pop =>
      refine (pop_follows h).bind_ok (fun r hr => .ok ⟨?_, hr.2⟩)
      rw [hr.1]
  | indexOf element =>
      rw [run, indexOf_eq h hsmall]
      exact .ok ⟨rfl, h⟩
  | insertAt element index =>
      rw [run, apply]
      by_cases hindex : index.toNat ≤ xs.length
      · rw [if_pos hindex]
        exact (insertAt_follows h hsmall element hindex).bind_ok (fun v' hv' => .ok ⟨rfl, hv'⟩)
      · have hfail : v.insertAt element index = .error .assertion :=
          if_neg (by rw [UInt32.le_iff_toNat_le, h.length]; exact hindex)
        rw [hfail, if_neg hindex]
        exact .error _
  | remove node => exact (remove_follows h hsmall node).bind_ok (fun v' hv' => .ok ⟨rfl, hv'⟩)
  | removeAt index =>
      rw [run, apply]
      by_cases hindex : index.toNat < xs.length
      · rw [if_pos hindex]
        refine (removeAt_follows h index hindex).bind_ok (fun r hr => .ok ⟨?_, hr.2⟩)
        rw [hr.1]
      · have hfail : v.removeAt index = .error .assertion :=
          if_neg (by rw [UInt32.lt_iff_toNat_lt, h.length]; exact hindex)
        rw [hfail, if_neg hindex]
        exact .error _

theorem apply_length_le {xs ys : List α} {op : VectorOp α} {r : VectorResult α}
    (h : op.apply xs = .ok (r, ys)) : ys.length ≤ xs.length + 1 := by
  cases op with
  | add element =>
      obtain ⟨-, rfl⟩ := Prod.mk.inj (Except.ok.inj h)
      rw [List.length_append, List.length_singleton]
  | pop =>
      obtain ⟨-, rfl⟩ := Prod.mk.inj (Except.ok.inj h)
      rw [List.length_dropLast]
      omega
  | indexOf element =>
      obtain ⟨-, rfl⟩ := Prod.mk.inj (Except.ok.inj h)
      exact Nat.le_succ _
  | insertAt element index =>
      rw [apply] at h
      split at h
      · obtain ⟨-, rfl⟩ := Prod.mk.inj (Except.ok.inj h)
        exact List.length_insertIdx_le_succ
      · cases h
  | remove node =>
      obtain ⟨-, rfl⟩ := Prod.mk.inj (Except.ok.inj h)
      exact Nat.le_succ_of_le List.erase_sublist.length_le
  | removeAt index =>
      rw [apply] at h
      split at h
      · obtain ⟨-, rfl⟩ := Prod.mk.inj (Except.ok.inj h)
        exact Nat.le_succ_of_le (List.eraseIdx_sublist _ _).length_le
      · cases h

/-- Any calls, from a vector with the elements `xs` on. -/
theorem runAll_follows (ops : List (VectorOp α)) {v : GumboVector α} {xs : List α} (h : Rep bad v xs)
    (hsmall : xs.length + ops.length < 2 ^ 31) :
    Follows (Blamed bad) Eq (runAll (fun v op => run v op) ops v)
      (runAll (fun xs op => apply xs op) ops xs) := by
  induction ops generalizing v xs with
  | nil => exact .ok rfl
  | cons op ops ih =>
      rw [List.length_cons] at hsmall
      rw [runAll, runAll]
      refine (run_follows h (by omega) op).and_eq.bind ?_
      rintro ⟨result, v'⟩ ⟨result', ys⟩ ⟨⟨rfl, hrep⟩, happly⟩
      have hlen : ys.length ≤ xs.length + 1 := apply_length_le happly
      have hrest : ys.length + ops.length < 2 ^ 31 := by omega
      refine (ih hrep hrest).bind ?_
      rintro rs _ rfl
      exact .ok rfl

/-- **A vector is a list**, for fewer than `2^31` calls: what the functions return, one after the other,
and which of them fails an assertion. No access leaves the array. Only if the allocator has returned
`NULL`, this may be used or fail the assertion about it. -/
theorem vector_refines (heap : Allocator (Nat → α)) (initialCapacity : UInt64)
    (ops : List (VectorOp α)) (hsmall : ops.length < 2 ^ 31) :
    runAll (fun v op => run v op) ops (GumboVector.init heap initialCapacity)
        = runAll (fun xs op => apply xs op) ops []
      ∨ (∃ k, heap k = none)
        ∧ ∃ e, runAll (fun v op => run v op) ops (GumboVector.init heap initialCapacity) = .error e
          ∧ (e = .null ∨ e = .assertion) := by
  have hrep : Rep (∃ k, heap k = none) (GumboVector.init heap initialCapacity) [] :=
    init_rep (fun k hk => ⟨k, hk⟩) initialCapacity
  have hfollows := runAll_follows ops hrep (by rw [List.length_nil, Nat.zero_add]; exact hsmall)
  rcases hfollows.eq_or with heq | ⟨e, herror, hfault, hnull⟩
  · exact Or.inl heq
  · exact Or.inr ⟨hnull, e, herror, hfault⟩

theorem vector_refines_three :
    runAll (fun v op => run v op) [.insertAt 7 0, .insertAt 5 0, .remove 7, .pop]
        (GumboVector.init (fun _ => some (fun _ => 0)) 1)
      = .ok [VectorResult.void, .void, .void, .element (some 5)] :=
  (vector_refines (fun _ => some (fun _ => 0)) 1 [.insertAt 7 0, .insertAt 5 0, .remove 7, .pop]
    (by decide)).resolve_right (fun h => h.1.elim (fun _ hk => nomatch hk))

end VectorOp

end CSearch.Gumbo
