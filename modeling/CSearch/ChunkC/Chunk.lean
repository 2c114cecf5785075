import CSearch.Tool.Chunk

set_option autoImplicit false

/-! # `chunk_t` of `chunk.c`

A growable buffer of 32-bit values that can be compressed in place: the members `buffer` and `cbuff`
are a union, and `is_compressed` says which of the two it is. The capacity starts at four and is
doubled until it is `max_size`.

A failed assertion is `none`, and so is a compression that writes behind the end of the memory
allocated for it; `compress_fits_iff` says when that is the case.

`Open` is the invariant of a chunk that has not been compressed; a push below `max_size` keeps it
and appends the value (`Open.push`). A compressed chunk decodes to its values (`Open.compress`).
`chunk_decompress` puts them back, but leaves `is_compressed` set, so that the chunk can neither be
read nor pushed to any more (`not_restored`).
-/

namespace CSearch.ChunkC

open StreamVByte

/-! ## The functions of the source -/

/-- `chunk_t`. `buff` is the memory that the union of `buffer` and `cbuff` points to; `capacity` is
a `size_t`, `max_size` has 25 bits. -/
structure ChunkT where
  capacity : Nat
  size : UInt32
  isCompressed : Bool
  maxSize : Nat
  buff : Mem
  bcount : UInt32

namespace ChunkT

/-- A chunk as `memset` leaves it. -/
def zero : ChunkT := ⟨0, 0, false, 0, fun _ => 0, 0⟩

/-- `chunk_init`. -/
def init (c : ChunkT) (heap : Mem) : ChunkT :=
  { c with maxSize := (2 <<< 22) % 2 ^ 25, capacity := 0, buff := heap }

/-- A new chunk: zeroed and initialised. -/
def fresh (heap : Mem) : ChunkT := zero.init heap

/-- The part of `chunk_push` that makes room. -/
def grow (c : ChunkT) (heap : Mem) : ChunkT :=
  let capacity := if c.capacity ≠ 0 then (c.capacity <<< 1) % 2 ^ 64 else 4
  { c with capacity := capacity, buff := c.buff.realloc (4 * c.capacity) (4 * capacity) heap }

/-- `buffer[size++] = value`. -/
def store (c : ChunkT) (value : UInt32) : ChunkT :=
  { c with buff := c.buff.setWord c.size.toNat value, size := c.size + 1 }

/-- `chunk_push`. -/
def push (c : ChunkT) (value : UInt32) (heap : Mem) : Option (Int32 × ChunkT) :=
  if c.isCompressed then none
  else if c.size.toNat = c.capacity ∧ c.capacity = c.maxSize then some (-1, c)
  else
    let c := (if c.size.toNat = c.capacity then c.grow heap else c).store value
    some (if c.size.toNat = c.capacity then 1 else 0, c)

/-- `chunk_full`. -/
def full (c : ChunkT) : Bool := c.size.toNat == c.maxSize

/-- `chunk_get`: the value and the offset behind it, or `none` where the source returns `-1`. -/
def get (c : ChunkT) (off : UInt32) : Option (UInt32 × UInt32) :=
  if c.isCompressed ∨ c.capacity ≤ off.toNat then none
  else some (c.buff.word off.toNat, off + 1)

/-- The values of a chunk that is not compressed: `buffer[0..size)`. -/
def contents (c : ChunkT) : List UInt32 := c.buff.words c.size.toNat

/-- `chunk_compress`: `*bcount`, and the chunk. -/
def compress (c : ChunkT) (heap : Mem) (slack : Nat) : Option (UInt32 × ChunkT) :=
  if c.size = 0 ∨ c.isCompressed then none
  else
    let r := streamvbyteDeltaEncode c.contents c.size heap 0
    if r.2 ≤ c.size.toNat * 4 + slack then
      some (UInt32.ofNat r.2, { c with isCompressed := true, buff := r.1 })
    else none

/-- `chunk_decompress`. -/
def decompress (c : ChunkT) (N : UInt32) (heap : Mem) : Option ChunkT :=
  if c.isCompressed then
    some { c with buff := heap.store 0 (leWords (streamvbyteDeltaDecode c.buff N 0).1) }
  else none

/-- A sequence of calls of `chunk_push`, which have to return something other than `-1`. -/
def pushAll (c : ChunkT) (heap : Nat → Mem) : List UInt32 → Option ChunkT
  | [] => some c
  | v :: vs =>
      (c.push v (heap 0)).bind fun r =>
        if r.1 = -1 then none else r.2.pushAll (fun n => heap (n + 1)) vs

/-! ## Pushing -/

@[simp] theorem contents_length (c : ChunkT) : c.contents.length = c.size.toNat :=
  Mem.words_length _ _

/-- A chunk that has not been compressed: the capacity is on its way from four to `max_size`, and
the values lie inside it. -/
structure Open (c : ChunkT) : Prop where
  not_compressed : c.isCompressed = false
  max : c.maxSize = 2 ^ 23
  capacity : c.capacity = 0 ∨ ∃ k ≤ 21, c.capacity = 4 * 2 ^ k
  le : c.size.toNat ≤ c.capacity

theorem open_fresh (heap : Mem) : (fresh heap).Open :=
  ⟨rfl, rfl, Or.inl rfl, Nat.le_refl 0⟩

theorem fresh_contents (heap : Mem) : (fresh heap).contents = [] := rfl

theorem Open.capacity_le {c : ChunkT} (h : c.Open) : c.capacity ≤ 2 ^ 23 := by
  rcases h.capacity with h0 | ⟨k, hk, hc⟩
  · rw [h0]
    exact Nat.zero_le _
  · have : 2 ^ k ≤ 2 ^ 21 := Nat.pow_le_pow_right (by decide) hk
    rw [hc]
    omega

/-- Below `max_size`, a full chunk grows. -/
theorem Open.grow {c : ChunkT} (h : c.Open) (hfull : c.size.toNat = c.capacity)
    (hlt : c.size.toNat < 2 ^ 23) (heap : Mem) :
    (c.grow heap).Open ∧ (c.grow heap).contents = c.contents
      ∧ c.size.toNat < (c.grow heap).capacity := by
  -- the next capacity is again on the way to `max_size`
  obtain ⟨k, hk, hcap⟩ : ∃ k ≤ 21, (c.grow heap).capacity = 4 * 2 ^ k := by
    show ∃ k ≤ 21, (if c.capacity ≠ 0 then (c.capacity <<< 1) % 2 ^ 64 else 4) = 4 * 2 ^ k
    rcases h.capacity with h0 | ⟨k, hk, hc⟩
    · exact ⟨0, by decide, by rw [if_neg (not_not.mpr h0), pow_zero, Nat.mul_one]⟩
    · have hne : c.capacity ≠ 0 := by
        rw [hc]
        positivity
      have hk' : k < 21 := by
        by_contra hge
        rw [show k = 21 by omega] at hc
        omega
      have hpow : 2 ^ k ≤ 2 ^ 21 := Nat.pow_le_pow_right (by decide) hk
      refine ⟨k + 1, hk', ?_⟩
      rw [if_pos hne, hc, Nat.shiftLeft_eq, pow_one, pow_succ 2 k, ← Nat.mul_assoc]
      exact Nat.mod_eq_of_lt (by omega)
  have hroom : c.size.toNat < (c.grow heap).capacity := by
    show c.size.toNat < if c.capacity ≠ 0 then (c.capacity <<< 1) % 2 ^ 64 else 4
    rw [Nat.shiftLeft_eq, pow_one]
    split <;> omega
  refine ⟨⟨h.not_compressed, h.max, Or.inr ⟨k, hk, hcap⟩, hroom.le⟩, ?_, hroom⟩
  exact Mem.words_realloc c.buff (Nat.mul_le_mul_left 4 h.le) (Nat.mul_le_mul_left 4 hroom.le) heap

/-- Storing a value in the free part. -/
theorem Open.store {c : ChunkT} (h : c.Open) (hlt : c.size.toNat < c.capacity) (v : UInt32) :
    (c.store v).Open ∧ (c.store v).contents = c.contents ++ [v] := by
  have hle := h.capacity_le
  have hsize : (c.size + 1).toNat = c.size.toNat + 1 := by
    rw [UInt32.toNat_add, show (1 : UInt32).toNat = 1 from rfl]
    omega
  refine ⟨⟨h.not_compressed, h.max, h.capacity, ?_⟩, ?_⟩
  · show (c.size + 1).toNat ≤ c.capacity
    omega
  · show (c.buff.setWord c.size.toNat v).words (c.size + 1).toNat = c.buff.words c.size.toNat ++ [v]
    rw [hsize, Mem.words_setWord]

/-- **A push below `max_size`** appends the value. -/
theorem Open.push {c : ChunkT} (h : c.Open) (hlt : c.size.toNat < 2 ^ 23) (v : UInt32)
    (heap : Mem) :
    ∃ rc c', c.push v heap = some (rc, c') ∧ rc ≠ -1 ∧ c'.Open
      ∧ c'.contents = c.contents ++ [v] := by
  have hmax : ¬ (c.size.toNat = c.capacity ∧ c.capacity = c.maxSize) := by
    rw [h.max]
    omega
  have hrc : ∀ p : Prop, ∀ _ : Decidable p, (if p then (1 : Int32) else 0) ≠ -1 := by
    intro p _
    split <;> decide
  rw [ChunkT.push, if_neg (by rw [h.not_compressed]; exact Bool.false_ne_true), if_neg hmax]
  by_cases hfull : c.size.toNat = c.capacity
  · obtain ⟨hopen, hcont, hroom⟩ := h.grow hfull hlt heap
    obtain ⟨hopen', hcont'⟩ := hopen.store hroom v
    simp only [if_pos hfull]
    exact ⟨_, _, rfl, hrc _ _, hopen', by rw [hcont', hcont]⟩
  · obtain ⟨hopen', hcont'⟩ := h.store (lt_of_le_of_ne h.le hfull) v
    simp only [if_neg hfull]
    exact ⟨_, _, rfl, hrc _ _, hopen', hcont'⟩

theorem Open.pushAll {c : ChunkT} (h : c.Open) (heap : Nat → Mem) (vs : List UInt32)
    (hle : c.size.toNat + vs.length ≤ 2 ^ 23) :
    ∃ c', c.pushAll heap vs = some c' ∧ c'.Open ∧ c'.contents = c.contents ++ vs := by
  induction vs generalizing c heap with
  | nil => exact ⟨c, rfl, h, (List.append_nil _).symm⟩
  | cons v vs ih =>
      rw [List.length_cons] at hle
      obtain ⟨rc, c₁, hpush, hrc, hopen, hcont⟩ := h.push (by omega) v (heap 0)
      have hsize : c₁.size.toNat = c.size.toNat + 1 := by
        rw [← contents_length, hcont, List.length_append, contents_length, List.length_singleton]
      obtain ⟨c', hall, hopen', hcont'⟩ := ih hopen (fun n => heap (n + 1)) (by omega)
      refine ⟨c', ?_, hopen', ?_⟩
      · rw [ChunkT.pushAll, hpush, Option.bind_some, if_neg hrc, hall]
      · rw [hcont', hcont, List.append_assoc, List.singleton_append]

theorem Open.full_iff {c : ChunkT} (h : c.Open) : c.full = true ↔ c.size.toNat = 2 ^ 23 := by
  rw [full, h.max, beq_iff_eq]

/-! ## Compressing -/

/-- A chunk with values is compressed as the C++ chunk of its values is. -/
theorem Open.compress_eq {c : ChunkT} (h : c.Open) (hne : c.contents ≠ []) (heap : Mem)
    (slack : Nat) :
    c.compress heap slack = (Tool.Chunk.compress c.contents heap slack).map fun r =>
      (r.bcount, { c with isCompressed := true, buff := r.cbuffer }) := by
  have hlen := contents_length c
  have hsize : UInt32.ofNat c.contents.length = c.size := by rw [hlen, UInt32.ofNat_toNat]
  have hzero : ¬ (c.size = 0 ∨ c.isCompressed = true) := by
    rw [h.not_compressed]
    rintro (h0 | h0)
    · rw [h0] at hlen
      exact hne (List.length_eq_zero_iff.mp hlen)
    · exact Bool.false_ne_true h0
  rw [ChunkT.compress, if_neg hzero, Tool.Chunk.compress, Tool.Chunk.allocated, hlen]
  simp only [Tool.Chunk.encode, hsize]
  split <;> rfl

/-- **A compressed chunk decodes to its values.** -/
theorem Open.compress {c : ChunkT} (h : c.Open) (hne : c.contents ≠ []) {slack : Nat}
    (hfits : Tool.FitsWithin slack c.contents) (heap : Mem) :
    ∃ bcount c', c.compress heap slack = some (bcount, c') ∧ c'.isCompressed = true
      ∧ c'.size = c.size ∧ c'.capacity = c.capacity ∧ c'.maxSize = c.maxSize
      ∧ (streamvbyteDeltaDecode c'.buff c'.size 0).1 = c.contents := by
  have hlen := contents_length c
  have hle := h.le
  have hcap := h.capacity_le
  have hsize : UInt32.ofNat c.contents.length = c.size := by rw [hlen, UInt32.ofNat_toNat]
  rw [h.compress_eq hne, Tool.compress_of_fits hfits, Option.map_some]
  refine ⟨_, _, rfl, rfl, rfl, rfl, rfl, ?_⟩
  have hpay : Tool.HoldsPayload (Tool.Chunk.encode c.contents heap).cbuffer c.contents :=
    Tool.holdsPayload_of_eq heap (by omega) (fun a _ => rfl)
  have hdec := Tool.decode_of_holdsPayload hpay (by omega)
  rw [hsize] at hdec
  exact congrArg Prod.fst hdec

theorem contents_ne_of_full {c : ChunkT} (hfull : c.size.toNat = 2 ^ 23) : c.contents ≠ [] := by
  intro hnil
  have hlen := contents_length c
  rw [hnil, hfull] at hlen
  exact absurd hlen (by decide)

theorem Open.compress_eq_none {c : ChunkT} (h : c.Open) (hne : c.contents ≠ []) {slack : Nat}
    (hfits : ¬ Tool.FitsWithin slack c.contents) (heap : Mem) : c.compress heap slack = none := by
  rw [h.compress_eq hne, Tool.compress_of_not_fits hfits, Option.map_none]

/-- The `4 * size` bytes that `chunk_compress` allocates suffice exactly if the differences save as
many bytes as there are keys. -/
theorem compress_fits_iff {vs : List UInt32} (h : vs.length ≤ 2 ^ 23) :
    Tool.FitsWithin 0 vs ↔ (vs.length + 3) / 4 ≤ savedBytes (deltas 0 vs) := by
  rw [Tool.fitsWithin_zero]
  exact or_iff_right (by omega)

/-! ## Decompressing -/

/-- Reading from an offset on gives these values. -/
def Gets (c : ChunkT) : UInt32 → List UInt32 → Prop
  | _, [] => True
  | off, v :: vs => ∃ off', c.get off = some (v, off') ∧ Gets c off' vs

/-- A push is admitted, and does what it does to the chunk `d`. -/
def PushesLike (c d : ChunkT) : Prop :=
  ∀ v heap, ∃ rc c' d', d.push v heap = some (rc, d') ∧ c.push v heap = some (rc, c')
    ∧ c'.contents = d'.contents

/-- These values are pushed to a new chunk, which is compressed and decompressed and is then as it
was before. -/
def Restored (heap : Heap) (vs : List UInt32) : Prop :=
  ∃ c bcount c₁ c₂, (fresh (heap 0)).pushAll (heap.drop 3) vs = some c
    ∧ c.compress (heap 1) heap.slack = some (bcount, c₁)
    ∧ c₁.decompress c₁.size (heap 2) = some c₂ ∧ Gets c₂ 0 vs ∧ PushesLike c₂ c

/-- `chunk_decompress` leaves `is_compressed` set. -/
theorem decompress_isCompressed {c c' : ChunkT} {N : UInt32} {heap : Mem}
    (h : c.decompress N heap = some c') : c'.isCompressed = true := by
  rw [decompress] at h
  split at h
  · rename_i hc
    rw [Option.some.injEq] at h
    rw [← h]
    exact hc
  · exact absurd h (by simp)

theorem get_of_isCompressed {c : ChunkT} (h : c.isCompressed = true) (off : UInt32) :
    c.get off = none :=
  if_pos (Or.inl h)

theorem push_of_isCompressed {c : ChunkT} (h : c.isCompressed = true) (v : UInt32) (heap : Mem) :
    c.push v heap = none :=
  if_pos h

/-- **What becomes of a chunk**: the values are in the buffer again, but every `chunk_get` returns
`-1`, and the assertion of every `chunk_push` fails. -/
theorem decompress_stuck (vs : List UInt32) (hne : vs ≠ []) (hle : vs.length ≤ 2 ^ 23)
    (heap : Heap) (hfits : Tool.FitsWithin heap.slack vs) :
    ∃ c bcount c₁ c₂, (fresh (heap 0)).pushAll (heap.drop 3) vs = some c
      ∧ c.compress (heap 1) heap.slack = some (bcount, c₁)
      ∧ c₁.decompress c₁.size (heap 2) = some c₂
      ∧ c₂.contents = vs ∧ (∀ off, c₂.get off = none) ∧ ∀ v m, c₂.push v m = none := by
  obtain ⟨c, hpush, hopen, hcont⟩ := (open_fresh (heap 0)).pushAll (heap.drop 3) vs
    (by show 0 + vs.length ≤ 2 ^ 23; omega)
  rw [fresh_contents, List.nil_append] at hcont
  obtain ⟨bcount, c₁, hcomp, hflag, hsize, -, -, hdec⟩ :=
    hopen.compress (hcont ▸ hne) (hcont ▸ hfits) (heap 1)
  have hdecomp : c₁.decompress c₁.size (heap 2) = some { c₁ with
      buff := (heap 2).store 0 (leWords (streamvbyteDeltaDecode c₁.buff c₁.size 0).1) } :=
    if_pos hflag
  refine ⟨c, bcount, c₁, _, hpush, hcomp, hdecomp, ?_, ?_, ?_⟩
  · rw [hdec, hcont]
    have hlen : c₁.size.toNat = vs.length := by rw [hsize, ← contents_length, hcont]
    show ((heap 2).store 0 (leWords vs)).words c₁.size.toNat = vs
    rw [hlen]
    exact Mem.words_of_holds (Mem.holds_store _ 0 _)
  · exact get_of_isCompressed hflag
  · exact push_of_isCompressed hflag

theorem not_pushesLike {c c' : ChunkT} {N : UInt32} {heap : Mem}
    (h : c.decompress N heap = some c') (d : ChunkT) : ¬ PushesLike c' d := by
  intro hlike
  obtain ⟨rc, d₁, d₂, -, hpush, -⟩ := hlike 0 heap
  rw [push_of_isCompressed (decompress_isCompressed h)] at hpush
  exact absurd hpush (by simp)

/-- **No chunk is restored**, whatever the allocator returns. -/
theorem not_restored (heap : Heap) (vs : List UInt32) : ¬ Restored heap vs := by
  rintro ⟨c, bcount, c₁, c₂, -, -, hdec, -, hlike⟩
  exact not_pushesLike hdec c hlike

/-- A chunk with one value: all calls return, but the value cannot be read. -/
theorem not_restored_seven :
    (∃ c bcount c₁ c₂, (fresh (fun _ => 0)).pushAll (fun _ _ => 0) [7] = some c
        ∧ c.compress (fun _ => 0) 0 = some (bcount, c₁)
        ∧ c₁.decompress c₁.size (fun _ => 0) = some c₂ ∧ c₂.get 0 = none)
      ∧ ¬ Restored (Heap.zeros 0) [7] := by
  have hfits : Tool.FitsWithin (Heap.zeros 0).slack [7] :=
    (compress_fits_iff (by decide)).mpr (by decide)
  obtain ⟨c, bcount, c₁, c₂, hpush, hcomp, hdec, -, hget, -⟩ :=
    decompress_stuck [7] (by decide) (by decide) (Heap.zeros 0) hfits
  refine ⟨⟨c, bcount, c₁, c₂, hpush, hcomp, hdec, hget 0⟩, ?_⟩
  rintro ⟨c, bcount, c₁, c₂, -, -, hdec, hgets, -⟩
  obtain ⟨off, hget, -⟩ := hgets
  rw [get_of_isCompressed (decompress_isCompressed hdec)] at hget
  exact absurd hget (by simp)

end ChunkT

end CSearch.ChunkC
