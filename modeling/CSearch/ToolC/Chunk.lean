import CSearch.Index.Block

set_option autoImplicit false

/-! # `chunk_t` of `tool.c`

The buffer that `tool.c` reads and writes through. It is a `realloc`ed array with two counters:
`size`, the number of values pushed, and `cap`, the number of values allocated. A reader never
touches `size` and takes `cap` for the number of values.

`buffer` has a value at every index, also behind the allocation, and fresh memory is an argument.
`chunk_compress` asserts that the chunk is not empty; a failed assertion is `none`. So is a store
behind the compressed buffers of `chunk_compress` and `read_block`, which have four bytes per value,
and the `slack` bytes that can be used behind them.
-/

namespace CSearch.ToolC

open StreamVByte

/-! ## The functions of the source -/

/-- `chunk_t`. -/
structure ChunkT where
  size : UInt32
  cap : UInt32
  buffer : Nat → UInt32

namespace ChunkT

/-- An empty chunk, as `memset` leaves it. -/
def zero : ChunkT := ⟨0, 0, fun _ => 0⟩

/-- Memory as an array of 32-bit values. -/
def words (heap : Mem) (i : Nat) : UInt32 := UInt32.ofNat (heap.le (4 * i) 4)

/-- `chunk_reset`. -/
def reset (c : ChunkT) : ChunkT := { c with size := 0 }

/-- `chunk_resize`. What `realloc` keeps is the common part of the old and the new allocation. -/
def resize (c : ChunkT) (size : Nat) (heap : Mem) : ChunkT :=
  if c.size.toNat < size ∨ c.cap = 0 then
    { c with
      buffer := fun i => if i < c.cap.toNat ∧ i < size then c.buffer i else words heap i
      cap := UInt32.ofNat size }
  else c

/-- `chunk_push`: whether the chunk is full now, and the chunk. -/
def push (c : ChunkT) (value : UInt32) (heap : Mem) : Bool × ChunkT :=
  let c := c.resize 256 heap
  let c := { c with buffer := Function.update c.buffer c.size.toNat value, size := c.size + 1 }
  (c.size == c.cap, c)

/-- `chunk_get`: the value and the offset behind it, or `none` where the source returns `-1`. -/
def get (c : ChunkT) (off : UInt32) : Option (UInt32 × UInt32) :=
  if c.cap ≤ off then none else some (c.buffer off.toNat, off + 1)

/-- The values pushed: `buffer[0..size)`. -/
def contents (c : ChunkT) : List UInt32 := (List.range c.size.toNat).map c.buffer

/-- `chunk_compress`: the compressed buffer and `bcount`. -/
def compress (c : ChunkT) (heap : Mem) (slack : Nat) : Option (Mem × UInt32) :=
  if c.size = 0 then none
  else
    let r := streamvbyteDeltaEncode c.contents c.size heap 0
    if r.2 ≤ c.size.toNat * 4 + slack then some (r.1, UInt32.ofNat r.2) else none

/-- `chunk_decompress`. -/
def decompress (c : ChunkT) (cbuffer : Mem) (N : UInt32) (heap : Mem) : ChunkT :=
  let c := c.resize N.toNat heap
  let out := (streamvbyteDeltaDecode cbuffer N 0).1
  { c with buffer := fun i => out.getD i (c.buffer i) }

/-- `read_block`. `cheap` is the memory of the compressed buffer, `heap` that of the values. -/
def readBlock (file : CFile) (N bcount : UInt32) (c : ChunkT) (cheap heap : Mem) (slack : Nat) :
    Option (ChunkT × CFile) :=
  let r := file.fread bcount.toNat
  if r.1.length ≤ N.toNat * 4 + slack then
    some (c.decompress (cheap.store 0 r.1) N heap, r.2.2)
  else none

/-! ## Pushing -/

@[simp] theorem contents_length (c : ChunkT) : c.contents.length = c.size.toNat := by
  simp [contents]

theorem contents_eq_nil_iff (c : ChunkT) : c.contents = [] ↔ c.size = 0 := by
  rw [← List.length_eq_zero_iff, contents_length, ← UInt32.toNat_inj]
  rfl

@[simp] theorem reset_contents (c : ChunkT) : c.reset.contents = [] :=
  (contents_eq_nil_iff _).mpr rfl

/-- The values lie inside the allocation. -/
def Fits (c : ChunkT) : Prop := c.size.toNat ≤ c.cap.toNat

theorem fits_reset (c : ChunkT) : c.reset.Fits := Nat.zero_le _

theorem ofNat_256_toNat : (UInt32.ofNat 256).toNat = 256 := rfl

theorem resize_of_lt {c : ChunkT} {n : Nat} (h : c.size.toNat < n) (heap : Mem) :
    c.resize n heap
      = { c with
          buffer := fun i => if i < c.cap.toNat ∧ i < n then c.buffer i else words heap i
          cap := UInt32.ofNat n } :=
  if_pos (Or.inl h)

theorem succ_size_toNat {c : ChunkT} (h : c.size.toNat < 256) :
    (c.size + 1).toNat = c.size.toNat + 1 := by
  rw [UInt32.toNat_add, show (1 : UInt32).toNat = 1 from rfl]
  omega

/-- **A push below 256 values** appends the value. -/
theorem push_contents {c : ChunkT} (hfit : c.Fits) (h : c.size.toNat < 256) (v : UInt32)
    (heap : Mem) : (c.push v heap).2.contents = c.contents ++ [v] := by
  unfold Fits at hfit
  simp only [push, resize_of_lt h, contents, succ_size_toNat h, List.range_succ, List.map_append,
    List.map_singleton, Function.update_self]
  congr 1
  refine List.map_congr_left (fun i hi => ?_)
  rw [List.mem_range] at hi
  rw [Function.update_of_ne (by omega), if_pos (by omega)]

theorem push_fits {c : ChunkT} (h : c.size.toNat < 256) (v : UInt32) (heap : Mem) :
    (c.push v heap).2.Fits := by
  simp only [push, resize_of_lt h, Fits, succ_size_toNat h, ofNat_256_toNat]
  omega

theorem push_cap {c : ChunkT} (h : c.size.toNat < 256) (v : UInt32) (heap : Mem) :
    (c.push v heap).2.cap = 256 := by
  simp only [push, resize_of_lt h]
  rfl

/-- A full chunk is not enlarged. -/
theorem push_cap_of_full {c : ChunkT} (hsize : c.size = 256) (hcap : c.cap = 256) (v : UInt32)
    (heap : Mem) : (c.push v heap).2.cap = 256 := by
  have hresize : c.resize 256 heap = c := by
    rw [resize, if_neg]
    rw [hsize, hcap]
    decide
  simp only [push, hresize, hcap]

/-- The push reports a full chunk at 256 values. -/
theorem push_full {c : ChunkT} (hfit : c.Fits) (h : c.size.toNat < 256) (v : UInt32)
    (heap : Mem) : (c.push v heap).1 = true ↔ (c.contents ++ [v]).length = 256 := by
  rw [← push_contents hfit h v heap, contents_length]
  simp only [push, resize_of_lt h, beq_iff_eq, ← UInt32.toNat_inj, ofNat_256_toNat]

/-! ## Compression -/

/-- A non-empty chunk compresses as the C++ chunk of its values does. -/
theorem compress_eq {c : ChunkT} (h : c.contents ≠ []) (heap : Mem) (slack : Nat) :
    c.compress heap slack
      = (Tool.Chunk.compress c.contents heap slack).map (fun r => (r.cbuffer, r.bcount)) := by
  rw [compress, if_neg (fun h' => h ((contents_eq_nil_iff c).mpr h')), Tool.Chunk.compress,
    apply_ite (Option.map _)]
  simp only [Tool.Chunk.encode, Tool.Chunk.allocated, contents_length, UInt32.ofNat_toNat]
  rfl

theorem compress_of_fits {c : ChunkT} (h : c.contents ≠ []) {slack : Nat}
    (hfits : Tool.FitsWithin slack c.contents) (heap : Mem) :
    c.compress heap slack
      = some ((Tool.Chunk.encode c.contents heap).cbuffer,
          (Tool.Chunk.encode c.contents heap).bcount) := by
  rw [compress_eq h, Tool.compress_of_fits hfits]
  rfl

theorem compress_of_not_fits {c : ChunkT} (h : c.contents ≠ []) {slack : Nat}
    (hfits : ¬ Tool.FitsWithin slack c.contents) (heap : Mem) : c.compress heap slack = none := by
  rw [compress_eq h, Tool.compress_of_not_fits hfits]
  rfl

/-- Decompressing into an unused chunk: as many values as announced, and the right ones. -/
theorem decompress_spec {c : ChunkT} {m : Mem} {N : UInt32} {docs : List UInt32}
    (hsize : c.size = 0) (hN : N.toNat = docs.length) (hne : docs ≠ [])
    (hdec : (streamvbyteDeltaDecode m N 0).1 = docs) (heap : Mem) :
    (c.decompress m N heap).size = 0 ∧ (c.decompress m N heap).cap = N
      ∧ ∀ i d, docs[i]? = some d → (c.decompress m N heap).buffer i = d := by
  have hpos : c.size.toNat < N.toNat := by
    rw [hsize, hN]
    exact List.length_pos_iff.mpr hne
  simp only [decompress, resize_of_lt hpos, hdec]
  refine ⟨hsize, UInt32.ofNat_toNat, fun i d hi => ?_⟩
  simp [List.getD, hi]

/-- `chunk_decompress` leaves `size` as it was. -/
theorem decompress_size (c : ChunkT) (m : Mem) (N : UInt32) (heap : Mem) :
    (c.decompress m N heap).size = c.size := by
  show (c.resize N.toNat heap).size = c.size
  rw [resize]
  split <;> rfl

end ChunkT

end CSearch.ToolC
