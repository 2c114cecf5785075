import CSearch.Basic.Stream
import CSearch.StreamVByte.Decode

set_option autoImplicit false

/-! # `tool::chunk`

A chunk is a vector of 32-bit values with a compressed form (`chunk.h`). Its payload on disk is
what `streamvbyte_delta_encode` makes of the vector, starting from `prev = 0`.

Fresh memory is an argument (`heap`): neither the buffer that `compress` allocates nor what lies
behind the buffer that `read_block` fills has known contents. Both buffers have an end. `compress`
allocates four bytes per value and may write more than that; `read_block` allocates a single byte,
where it means to allocate four per value. A call that stores behind the end of its buffer, and
behind the `slack` bytes the allocator happens to leave there, has no result (`none`).
-/

namespace CSearch

open StreamVByte

/-! ## The size of a payload -/

/-- The differences that are stored for a vector. -/
def chunkDeltas (v : List UInt32) : List UInt32 := deltas 0 v

/-- The number of payload bytes of a vector: the key area and one to four bytes for every
difference. -/
def encodedSize (v : List UInt32) : Nat :=
  keyLen (UInt32.ofNat v.length) + dataSize (chunkDeltas v)

@[simp] theorem chunkDeltas_length (v : List UInt32) : (chunkDeltas v).length = v.length :=
  deltas_length 0 v

theorem ofNat_length_toNat {v : List UInt32} (h : v.length < 2 ^ 32) :
    (UInt32.ofNat v.length).toNat = v.length := by
  rw [UInt32.toNat_ofNat', Nat.mod_eq_of_lt h]

theorem keyLen_toNat (count : UInt32) : keyLen count = (count.toNat + 3) % 2 ^ 32 / 4 := by
  have h3 : (3 : UInt32).toNat = 3 := rfl
  have h4 : (4 : UInt32).toNat = 4 := rfl
  rw [keyLen, UInt32.toNat_div, UInt32.toNat_add, h3, h4]

/-- The key area has its full length unless the sum in it wraps around. -/
theorem keyLen_of_lt {v : List UInt32} (h : v.length + 3 < 2 ^ 32) :
    keyLen (UInt32.ofNat v.length) = (v.length + 3) / 4 := by
  rw [keyLen_toNat, ofNat_length_toNat (by omega), Nat.mod_eq_of_lt h]

theorem keyLen_of_ge {v : List UInt32} (h : v.length < 2 ^ 32) (h3 : 2 ^ 32 ≤ v.length + 3) :
    keyLen (UInt32.ofNat v.length) = 0 := by
  rw [keyLen_toNat, ofNat_length_toNat h]
  omega

theorem length_le_encodedSize (v : List UInt32) : v.length ≤ encodedSize v := by
  have := length_le_dataSize (chunkDeltas v)
  rw [chunkDeltas_length] at this
  unfold encodedSize
  omega

/-- There are never more key bytes than payload bytes. -/
theorem keys_le_encodedSize {v : List UInt32} (h : v.length < 2 ^ 32) :
    (v.length + 3) / 4 ≤ encodedSize v := by
  have := length_le_dataSize (chunkDeltas v)
  rw [chunkDeltas_length] at this
  rw [encodedSize, keyLen_toNat, ofNat_length_toNat h]
  omega

namespace Tool

/-! ## The functions of the source -/

/-- `tool::chunk`. -/
abbrev Chunk : Type := List UInt32

/-- What `compress` leaves behind: the buffer, the number of bytes the encoder has written there,
and the number reported in `bcount`, which is that number in `uint32_t`. -/
structure Compressed where
  cbuffer : Mem
  written : Nat
  bcount : UInt32

/-- What the encoder makes of a chunk, in memory without an end. -/
def Chunk.encode (c : Chunk) (heap : Mem) : Compressed :=
  let r := streamvbyteDeltaEncode c (UInt32.ofNat c.length) heap 0
  ⟨r.1, r.2, UInt32.ofNat r.2⟩

/-- The number of bytes allocated for the compressed form, `size() * sizeof(value_type)`. -/
def Chunk.allocated (c : Chunk) : Nat := c.length * 4

/-- `chunk::compress`. -/
def Chunk.compress (c : Chunk) (heap : Mem) (slack : Nat) : Option Compressed :=
  let r := c.encode heap
  if r.written ≤ c.allocated + slack then some r else none

/-- `chunk::decompress`: the vector afterwards. -/
def Chunk.decompress (cbuffer : Mem) (N : UInt32) : Chunk := (streamvbyteDeltaDecode cbuffer N 0).1

/-- The buffer of `read_block`: `make_shared<uint8_t>(n)` gives one byte of value `n`, and the
bytes read are stored from there on. -/
def blockBuffer (N : UInt32) (heap : Mem) (bytes : List UInt8) : Mem :=
  (heap.store 0 [UInt8.ofNat (N.toNat * 4)]).store 0 bytes

/-- `chunk::read_block`. The number of bytes asked for is `N * sizeof(value_type)`, and the object
they go to has one byte. -/
def Chunk.readBlock (fs : FStream) (N _bcount : UInt32) (heap : Mem) (slack : Nat) :
    Option (Chunk × FStream) :=
  let r := fs.read (N.toNat * 4)
  if r.1.length ≤ 1 + slack then some (Chunk.decompress (blockBuffer N heap r.1) N, r.2) else none

@[simp] theorem decompress_length (m : Mem) (N : UInt32) :
    (Chunk.decompress m N).length = N.toNat := by
  rw [Chunk.decompress, streamvbyteDeltaDecode_eq, undeltas_length, rawsAt_length]

/-! ## Compression -/

theorem encode_written {v : Chunk} (h : v.length < 2 ^ 32) (heap : Mem) :
    (v.encode heap).written = encodedSize v := by
  show (streamvbyteDeltaEncode v (UInt32.ofNat v.length) heap 0).2 = _
  rw [streamvbyteDeltaEncode_eq _ _ _ _ (by rw [ofNat_length_toNat h]), ofNat_length_toNat h,
    List.take_length]
  rfl

theorem encode_bcount {v : Chunk} (h : v.length < 2 ^ 32) (heap : Mem) :
    (v.encode heap).bcount = UInt32.ofNat (encodedSize v) := by
  rw [← encode_written h heap]
  rfl

theorem encode_bcount_toNat {v : Chunk} (h : v.length < 2 ^ 32) (heap : Mem) :
    (v.encode heap).bcount.toNat = encodedSize v % 2 ^ 32 := by
  rw [encode_bcount h, UInt32.toNat_ofNat']

theorem encode_cbuffer {v : Chunk} (h : v.length < 2 ^ 32) (heap : Mem) :
    (v.encode heap).cbuffer
      = (heap.store (keyLen (UInt32.ofNat v.length)) (dataBytes (chunkDeltas v))).store 0
          (keyBytes (chunkDeltas v)) := by
  show (streamvbyteDeltaEncode v (UInt32.ofNat v.length) heap 0).1 = _
  rw [streamvbyteDeltaEncode_eq _ _ _ _ (by rw [ofNat_length_toNat h]), ofNat_length_toNat h,
    List.take_length]
  rfl

/-- The key bytes are in the buffer. -/
theorem encode_holds_keys {v : Chunk} (h : v.length < 2 ^ 32) (heap : Mem) :
    (v.encode heap).cbuffer.Holds 0 (keyBytes (chunkDeltas v)) := by
  rw [encode_cbuffer h]
  exact Mem.holds_store _ _ _

/-- A buffer with the right key bytes has the right codes. -/
theorem codeAt_of_holds_keys {m : Mem} {ds : List UInt32} (h : m.Holds 0 (keyBytes ds)) (i : Nat)
    (d : UInt32) (hi : ds[i]? = some d) : codeAt m 0 i = codeOf d := by
  obtain ⟨hlt, hget⟩ := List.getElem?_eq_some_iff.mp hi
  have hk := h (i / 4) (by rw [keyBytes_length]; omega)
  have hkey : (keyBytes ds)[i / 4]? = some (UInt8.ofNat (keyByte (codes ds) (i / 4))) := by
    rw [keyBytes, List.getElem?_map, List.getElem?_range (by omega)]
    rfl
  rw [hkey] at hk
  have hbyte : m (0 + i / 4) = UInt8.ofNat (keyByte (codes ds) (i / 4)) := (Option.some.inj hk).symm
  have hcode : (codes ds).getD i 0 = codeOf d := by
    simp [codes, List.getD, hi]
  rw [codeAt, hbyte, UInt8.toNat_ofNat', Nat.mod_eq_of_lt (keyByte_lt ds _), keyByte_code, hcode]

/-! ## The buffer of `compress`

All compressors of the repository (`chunk.h`, `tool.c`, `chunk.c`) allocate four bytes per value.
That is enough for the data bytes, but the key bytes come on top: what is too much for the buffer
must have been saved by differences of fewer than four bytes. -/

/-- The encoder stays inside the buffer allocated for it. -/
def FitsBuffer (v : Chunk) : Prop := ∀ heap, (v.encode heap).written ≤ v.allocated

/-- What the encoder writes for any vector; the number of values is passed on in 32 bits. -/
theorem encode_written_eq (v : Chunk) (heap : Mem) :
    (v.encode heap).written
      = (v.length % 2 ^ 32 + 3) % 2 ^ 32 / 4
        + dataSize (deltas 0 (v.take (v.length % 2 ^ 32))) := by
  have hcount : (UInt32.ofNat v.length).toNat = v.length % 2 ^ 32 := UInt32.toNat_ofNat'
  show (streamvbyteDeltaEncode v (UInt32.ofNat v.length) heap 0).2 = _
  rw [streamvbyteDeltaEncode_eq _ _ _ _ (by rw [hcount]; exact Nat.mod_le _ _), keyLen_toNat,
    hcount]

/-- Four bytes a value suffice exactly if as many bytes are saved as there are keys, below the
wrap-around of the encoder; behind it they always do. -/
theorem written_le_iff (v : Chunk) (heap : Mem) :
    (v.encode heap).written ≤ v.allocated
      ↔ 2 ^ 32 ≤ v.length + 3 ∨ (v.length + 3) / 4 ≤ savedBytes (deltas 0 v) := by
  rw [encode_written_eq, Chunk.allocated]
  rcases Nat.lt_or_ge (v.length + 3) (2 ^ 32) with h | h
  · have hsave := dataSize_add_savedBytes (deltas 0 v)
    rw [deltas_length] at hsave
    rw [Nat.mod_eq_of_lt (show v.length < 2 ^ 32 by omega), Nat.mod_eq_of_lt h, List.take_length]
    omega
  · -- the key area has length zero, or only the values behind a multiple of `2^32` are encoded
    have hle := dataSize_le (deltas 0 (v.take (v.length % 2 ^ 32)))
    rw [deltas_length, List.length_take] at hle
    refine iff_of_true ?_ (Or.inl h)
    omega

/-- **When the compressed form fits its buffer**: exactly if the differences save at least as many
bytes as there are key bytes, or the number of values is so large that the sum in the length of
the key area wraps around. -/
theorem fitsBuffer_iff (v : Chunk) :
    FitsBuffer v ↔ 2 ^ 32 ≤ v.length + 3 ∨ (v.length + 3) / 4 ≤ savedBytes (deltas 0 v) := by
  unfold FitsBuffer
  simp only [written_le_iff, forall_const]

/-- A single value of `2^24` takes one key byte and four data bytes. -/
theorem not_fitsBuffer_single : ¬ FitsBuffer [16777216] := by
  intro h
  have h5 : (Chunk.encode [16777216] (fun _ => 0)).written = 5 := by
    rw [encode_written_eq]
    decide
  have hle := h (fun _ => 0)
  rw [h5] at hle
  exact absurd hle (by decide)

/-- Values that go up and down by `2^31`, or by `3 * 2^30` at the start: nothing is saved. -/
def alternating (n : Nat) : Chunk := (List.replicate n [3221225472, 1073741824]).flatten

theorem alternating_length (n : Nat) : (alternating n).length = 2 * n := by
  simp [alternating, Nat.mul_comm]

theorem savedBytes_alternating (n : Nat) : savedBytes (deltas 0 (alternating n)) = 0 := by
  apply savedBytes_eq_zero
  have hrest : ∀ d ∈ deltas 1073741824 (alternating n), 2 ^ 24 ≤ d.toNat := by
    induction n with
    | zero => simp [alternating, deltas]
    | succ n ih =>
        rw [alternating, List.replicate_succ, List.flatten_cons]
        simp only [List.cons_append, List.nil_append, deltas, List.forall_mem_cons]
        exact ⟨by decide, by decide, ih⟩
  cases n with
  | zero => simp [alternating, deltas]
  | succ n =>
      rw [alternating, List.replicate_succ, List.flatten_cons] at hrest ⊢
      simp only [List.cons_append, List.nil_append, deltas, List.forall_mem_cons] at hrest ⊢
      exact ⟨by decide, by decide, hrest.2.2⟩

/-- The encoder stays inside the buffer and the bytes that can be used behind it. -/
def FitsWithin (slack : Nat) (v : Chunk) : Prop :=
  ∀ heap, (v.encode heap).written ≤ v.allocated + slack

theorem fitsWithin_zero (v : Chunk) :
    FitsWithin 0 v ↔ 2 ^ 32 ≤ v.length + 3 ∨ (v.length + 3) / 4 ≤ savedBytes (deltas 0 v) := by
  unfold FitsWithin
  simp only [Nat.add_zero, written_le_iff, forall_const]

theorem fitsWithin_iff {v : Chunk} (h : v.length < 2 ^ 32) (slack : Nat) :
    FitsWithin slack v ↔ encodedSize v ≤ 4 * v.length + slack := by
  unfold FitsWithin Chunk.allocated
  simp only [encode_written h, forall_const]
  rw [Nat.mul_comm]

/-- There are at most as many bytes too many as there are keys. -/
theorem fitsWithin_of_le {v : Chunk} {slack : Nat} (h : (v.length + 3) / 4 ≤ slack) :
    FitsWithin slack v := by
  intro heap
  have hle := dataSize_le (deltas 0 (v.take (v.length % 2 ^ 32)))
  rw [deltas_length, List.length_take] at hle
  rw [encode_written_eq, Chunk.allocated]
  omega

/-- The differences of an ascending list are at most its values. -/
theorem deltas_lt_of_ascending {v : List UInt32} {prev : UInt32} {n : Nat}
    (hs : v.Pairwise (· ≤ ·)) (hprev : ∀ d ∈ v, prev ≤ d) (h : ∀ d ∈ v, d.toNat < n) :
    ∀ d ∈ deltas prev v, d.toNat < n := by
  induction v generalizing prev with
  | nil => exact fun d hd => absurd hd List.not_mem_nil
  | cons x v ih =>
      rw [List.forall_mem_cons] at hprev h
      rw [List.pairwise_cons] at hs
      refine List.forall_mem_cons.mpr ⟨?_, ih hs.2 hs.1 h.2⟩
      rw [UInt32.toNat_sub_of_le _ _ hprev.1]
      exact lt_of_le_of_lt (Nat.sub_le _ _) h.1

/-- Ascending values of three bytes fit. -/
theorem fitsWithin_of_ascending {v : Chunk} (hs : v.Pairwise (· ≤ ·))
    (h : ∀ d ∈ v, d.toNat < 2 ^ 24) (slack : Nat) : FitsWithin slack v := by
  have hprev : ∀ d ∈ v, 0 ≤ d := fun d _ => UInt32.le_iff_toNat_le.mpr (Nat.zero_le d.toNat)
  have hsave := length_le_savedBytes (deltas_lt_of_ascending hs hprev h)
  rw [deltas_length] at hsave
  have hzero : FitsWithin 0 v := (fitsWithin_zero v).mpr (Or.inr (by omega))
  exact fun heap => (hzero heap).trans (Nat.le_add_right _ _)

theorem compress_of_fits {v : Chunk} {slack : Nat} (h : FitsWithin slack v) (heap : Mem) :
    v.compress heap slack = some (v.encode heap) :=
  if_pos (h heap)

theorem compress_of_not_fits {v : Chunk} {slack : Nat} (h : ¬ FitsWithin slack v) (heap : Mem) :
    v.compress heap slack = none := by
  refine if_neg (fun hle => h (fun heap' => ?_))
  rwa [encode_written_eq, ← encode_written_eq v heap]

/-! ## The round trip -/

/-- Memory that holds the payload of `v`: the bytes the encoder has written for it. -/
def HoldsPayload (m : Mem) (v : Chunk) : Prop :=
  ∀ heap a, a < (v.encode heap).written → m a = (v.encode heap).cbuffer a

/-- The payload is the same whatever the fresh buffer held before. -/
theorem encode_cbuffer_congr {v : Chunk} (h : v.length < 2 ^ 32) (heap heap' : Mem) (a : Nat)
    (ha : a < encodedSize v) :
    (v.encode heap).cbuffer a = (v.encode heap').cbuffer a := by
  rw [encode_cbuffer h, encode_cbuffer h]
  set k := keyLen (UInt32.ofNat v.length) with hk
  set keys := keyBytes (chunkDeltas v) with hkeys
  set data := dataBytes (chunkDeltas v) with hdata
  rcases Nat.lt_or_ge a keys.length with h1 | h1
  · have e1 := Mem.holds_store (heap.store k data) 0 keys a h1
    have e2 := Mem.holds_store (heap'.store k data) 0 keys a h1
    rw [e1, Nat.zero_add] at e2
    exact Option.some.inj e2
  · -- behind the key bytes lie data bytes
    have hka : k ≤ a := by
      rw [hkeys, keyBytes_length, chunkDeltas_length] at h1
      rw [hk, keyLen_toNat, ofNat_length_toNat h]
      omega
    have hlen : a - k < data.length := by
      rw [hdata, dataBytes_length]
      unfold encodedSize at ha
      omega
    have e1 := Mem.holds_store heap k data (a - k) hlen
    have e2 := Mem.holds_store heap' k data (a - k) hlen
    rw [show k + (a - k) = a by omega] at e1 e2
    rw [Mem.store_ge _ 0 keys a (by omega), Mem.store_ge _ 0 keys a (by omega)]
    rw [e1] at e2
    exact Option.some.inj e2

/-- So is every part of it that is copied to a file. -/
theorem encode_load_congr {v : Chunk} (h : v.length < 2 ^ 32) (heap heap' : Mem) (n : Nat)
    (hn : n ≤ encodedSize v) :
    (v.encode heap).cbuffer.load 0 n = (v.encode heap').cbuffer.load 0 n := by
  refine List.map_congr_left (fun i hi => ?_)
  rw [List.mem_range] at hi
  exact encode_cbuffer_congr h heap heap' _ (by omega)

/-- Memory that holds the bytes of one compressed buffer holds the payload. -/
theorem holdsPayload_of_eq {v : Chunk} {m : Mem} (heap : Mem) (h : v.length < 2 ^ 32)
    (hm : ∀ a, a < (v.encode heap).written → m a = (v.encode heap).cbuffer a) :
    HoldsPayload m v := by
  intro heap' a ha
  rw [encode_written h] at ha hm
  rw [hm a ha, encode_cbuffer_congr h heap heap' a ha]

theorem HoldsPayload.keys {v : Chunk} {m : Mem} (hm : HoldsPayload m v) (h : v.length < 2 ^ 32) :
    m.Holds 0 (keyBytes (chunkDeltas v)) := by
  refine (encode_holds_keys h m).congr (fun a _ ha => ?_)
  rw [hm m a]
  rw [encode_written h]
  rw [keyBytes_length, chunkDeltas_length] at ha
  have := keys_le_encodedSize h
  omega

theorem HoldsPayload.codes {v : Chunk} {m : Mem} (hm : HoldsPayload m v) (h : v.length < 2 ^ 32)
    (j : Nat) (d : UInt32) (hj : (chunkDeltas v)[j]? = some d) : codeAt m 0 (0 + j) = codeOf d := by
  rw [Nat.zero_add]
  exact codeAt_of_holds_keys (hm.keys h) j d hj

/-- As long as the key area has its full length the data bytes are in the buffer, too. -/
theorem HoldsPayload.data {v : Chunk} {m : Mem} (hm : HoldsPayload m v)
    (h : v.length + 3 < 2 ^ 32) :
    m.Holds (keyLen (UInt32.ofNat v.length)) (dataBytes (chunkDeltas v)) := by
  refine (Mem.holds_store m _ _).congr (fun a h1 h2 => ?_)
  rw [dataBytes_length] at h2
  rw [hm m a (by rw [encode_written (by omega)]; exact h2), encode_cbuffer (by omega)]
  rw [Mem.store_ge _ 0]
  rw [keyBytes_length, chunkDeltas_length, ← keyLen_of_lt h]
  omega

/-- **Decoding a payload** gives the vector back and stops behind the payload. -/
theorem decode_of_holdsPayload {v : Chunk} {m : Mem} (hm : HoldsPayload m v)
    (h : v.length + 3 < 2 ^ 32) :
    streamvbyteDeltaDecode m (UInt32.ofNat v.length) 0 = (v, encodedSize v) := by
  have hlen : v.length < 2 ^ 32 := by omega
  obtain ⟨h1, h2⟩ := rawsAt_of_holds (chunkDeltas v) 0 (hm.codes hlen) (hm.data h)
  rw [chunkDeltas_length] at h1 h2
  rw [streamvbyteDeltaDecode_eq, ofNat_length_toNat hlen, h1, h2, chunkDeltas, undeltas_deltas]
  rfl

/-- **The chunk round trip at `v`**: whatever was in the fresh buffer, the compressed form fits in
it; and whatever follows the bytes written to it, decompressing gives `v` back, and the decoder
reads as many bytes as `compress` has reported. -/
def RoundTrips (v : Chunk) : Prop :=
  ∀ heap, ∃ r, v.compress heap 0 = some r
    ∧ ∀ mem : Mem, (∀ a, a < r.written → mem a = r.cbuffer a) →
      Chunk.decompress mem (UInt32.ofNat v.length) = v
        ∧ (streamvbyteDeltaDecode mem (UInt32.ofNat v.length) 0).2 = r.bcount.toNat

/-- If the bytes fit, the vector comes back; their number does if it fits in its `uint32_t`. -/
theorem roundTrips_iff_encodedSize {v : Chunk} (hN : v.length + 3 < 2 ^ 32) :
    RoundTrips v ↔ FitsWithin 0 v ∧ encodedSize v < 2 ^ 32 := by
  have hlen : v.length < 2 ^ 32 := by omega
  have hdec : ∀ heap mem : Mem,
      (∀ a, a < (v.encode heap).written → mem a = (v.encode heap).cbuffer a) →
      streamvbyteDeltaDecode mem (UInt32.ofNat v.length) 0 = (v, encodedSize v) :=
    fun heap mem h => decode_of_holdsPayload (holdsPayload_of_eq heap hlen h) hN
  constructor
  · intro h
    have hfits : FitsWithin 0 v := by
      by_contra hnot
      obtain ⟨r, hr, -⟩ := h (fun _ => 0)
      rw [compress_of_not_fits hnot] at hr
      exact absurd hr (by simp)
    refine ⟨hfits, ?_⟩
    obtain ⟨r, hr, hall⟩ := h (fun _ => 0)
    rw [compress_of_fits hfits, Option.some.injEq] at hr
    subst hr
    have h2 := (hall _ (fun _ _ => rfl)).2
    rw [hdec _ _ (fun _ _ => rfl), encode_bcount_toNat hlen] at h2
    have : encodedSize v % 2 ^ 32 < 2 ^ 32 := Nat.mod_lt _ (by norm_num)
    omega
  · rintro ⟨hfits, h⟩ heap
    refine ⟨_, compress_of_fits hfits heap, fun mem hm => ?_⟩
    rw [Chunk.decompress, hdec heap mem hm, encode_bcount_toNat hlen, Nat.mod_eq_of_lt h]
    exact ⟨rfl, rfl⟩

theorem encodedSize_eq {v : Chunk} (hN : v.length + 3 < 2 ^ 32) :
    encodedSize v = (v.length + 3) / 4 + dataSize (deltas 0 v) := by
  rw [encodedSize, keyLen_of_lt hN]
  rfl

/-- **The chunk round trip** is complete exactly when the differences save at least as many bytes as
there are key bytes, so that the compressed form fits its buffer, and the key bytes and the data
bytes together are fewer than `2^32`. -/
theorem roundTrips_iff (v : Chunk) (hN : v.length < 2 ^ 32 - 3) :
    RoundTrips v ↔ (v.length + 3) / 4 ≤ savedBytes (deltas 0 v)
      ∧ (v.length + 3) / 4 + dataSize (deltas 0 v) < 2 ^ 32 := by
  rw [← encodedSize_eq (by omega), roundTrips_iff_encodedSize (by omega), fitsWithin_zero]
  have hwrap : ¬ 2 ^ 32 ≤ v.length + 3 := by omega
  simp only [hwrap, false_or]

theorem roundTrips_three :
    ([1, 2, 3] : Chunk).length < 2 ^ 32 - 3 ∧ RoundTrips [1, 2, 3] :=
  ⟨by decide, (roundTrips_iff [1, 2, 3] (by decide)).mpr (by decide)⟩

theorem deltas_replicate_zero (n : Nat) :
    deltas 0 (List.replicate n (0 : UInt32)) = List.replicate n 0 := by
  induction n with
  | zero => rfl
  | succ n ih => rw [List.replicate_succ, deltas, ih, sub_zero]

theorem dataSize_replicate_zero (n : Nat) : dataSize (List.replicate n (0 : UInt32)) = n := by
  induction n with
  | zero => rfl
  | succ n ih =>
      rw [List.replicate_succ, dataSize_cons, ih]
      show 1 + n = n + 1
      omega

/-- Two inputs, for the two conditions. Ten values with differences of four bytes take 43 bytes, of
which 40 are allocated. A vector of 3435973840 zeros takes `2^32 + 4` bytes, of which `compress`
reports `4`. -/
theorem not_roundTrips_ten :
    ((alternating 5).length < 2 ^ 32 - 3 ∧ ¬ RoundTrips (alternating 5))
      ∧ (List.replicate 3435973840 (0 : UInt32)).length < 2 ^ 32 - 3
        ∧ ¬ RoundTrips (List.replicate 3435973840 0) := by
  have hlen : (List.replicate 3435973840 (0 : UInt32)).length = 3435973840 :=
    List.length_replicate
  refine ⟨⟨by decide, fun h => ?_⟩, by omega, fun h => ?_⟩
  · have hfits := ((roundTrips_iff_encodedSize (by decide)).mp h).1
    rw [fitsWithin_zero] at hfits
    exact absurd hfits (by decide)
  · have hsize := ((roundTrips_iff_encodedSize (by omega)).mp h).2
    rw [encodedSize_eq (by omega), deltas_replicate_zero, dataSize_replicate_zero] at hsize
    omega

/-! ## What a block buffer must hold

`read_block` takes the bytes a stream delivers, whatever follows them in memory. The two results
below say when the vector comes out: the bytes delivered must be the whole payload, and the
payload itself must not have been damaged, which happens to vectors so long that the key area
gets the length `0`. -/

/-- The keys have not overwritten data bytes, or only with the same bytes. -/
def KeysFit (v : Chunk) : Prop :=
  v.length + 3 < 2 ^ 32 ∨ keyBytes (chunkDeltas v) <+: dataBytes (chunkDeltas v)

/-- When the key area has length `0`, the buffer holds the keys and behind them data bytes. -/
theorem HoldsPayload.data_iff {v : Chunk} {m : Mem} (hm : HoldsPayload m v)
    (h : v.length < 2 ^ 32) (h3 : 2 ^ 32 ≤ v.length + 3) :
    m.Holds 0 (dataBytes (chunkDeltas v))
      ↔ keyBytes (chunkDeltas v) <+: dataBytes (chunkDeltas v) := by
  set keys := keyBytes (chunkDeltas v) with hkeys
  set data := dataBytes (chunkDeltas v) with hdata
  have hklen : keys.length ≤ data.length := by
    have h1 := keys_le_encodedSize h
    rw [encodedSize, keyLen_of_ge h h3] at h1
    rw [hkeys, hdata, keyBytes_length, dataBytes_length, chunkDeltas_length]
    omega
  -- the keys were written last, over the first data bytes
  have hk := hm.keys h
  constructor
  · intro hd
    rw [List.prefix_iff_eq_take]
    apply List.ext_getElem?
    intro i
    rcases Nat.lt_or_ge i keys.length with hi | hi
    · rw [List.getElem?_take_of_lt hi, hk i hi, hd i (by omega)]
    · rw [List.getElem?_eq_none hi, List.getElem?_eq_none (by rw [List.length_take]; omega)]
  · intro hp i hi
    rcases Nat.lt_or_ge i keys.length with h1 | h1
    · rw [← hk i h1]
      obtain ⟨tail, htail⟩ := hp
      rw [← htail, List.getElem?_append_left h1]
    · have ha : i < encodedSize v := by
        rw [encodedSize, keyLen_of_ge h h3]
        rw [hdata, dataBytes_length] at hi
        omega
      rw [hm m (0 + i) (by rw [encode_written h]; omega), encode_cbuffer h,
        ← hkeys, ← hdata, Mem.store_ge _ 0 keys _ (by omega), keyLen_of_ge h h3]
      exact Mem.holds_store m 0 data i hi

/-- **A whole payload decompresses** exactly when its keys fit. -/
theorem decompress_iff_keysFit {v : Chunk} {m : Mem} (hm : HoldsPayload m v)
    (h : v.length < 2 ^ 32) :
    Chunk.decompress m (UInt32.ofNat v.length) = v ↔ KeysFit v := by
  rcases Nat.lt_or_ge (v.length + 3) (2 ^ 32) with h3 | h3
  · rw [Chunk.decompress, decode_of_holdsPayload hm h3]
    exact ⟨fun _ => Or.inl h3, fun _ => rfl⟩
  · have hdec : Chunk.decompress m (UInt32.ofNat v.length)
        = undeltas 0 (rawsAt m 0 0 0 v.length) := by
      rw [Chunk.decompress, streamvbyteDeltaDecode_eq, ofNat_length_toNat h, keyLen_of_ge h h3]
    have hfit : KeysFit v ↔ m.Holds 0 (dataBytes (chunkDeltas v)) := by
      rw [hm.data_iff h h3]
      exact ⟨fun hf => hf.resolve_left (by omega), Or.inr⟩
    rw [hdec, hfit]
    constructor
    · intro hv
      refine holds_of_rawsAt (chunkDeltas v) 0 (hm.codes h) ?_
      have := congrArg (deltas 0) hv
      rwa [deltas_undeltas, ← chunkDeltas, ← chunkDeltas_length] at this
    · intro hd
      have := (rawsAt_of_holds (chunkDeltas v) 0 (hm.codes h) hd).1
      rw [chunkDeltas_length] at this
      rw [this, chunkDeltas, undeltas_deltas]

theorem blockBuffer_lt (N : UInt32) (heap : Mem) (bytes : List UInt8) (a : Nat)
    (ha : a < bytes.length) : bytes[a]? = some (blockBuffer N heap bytes a) := by
  have := Mem.holds_store (heap.store 0 [UInt8.ofNat (N.toNat * 4)]) 0 bytes a ha
  rwa [Nat.zero_add] at this

theorem blockBuffer_ge (N : UInt32) (heap : Mem) (bytes : List UInt8) (a : Nat)
    (ha : bytes.length ≤ a) (h1 : 1 ≤ a) : blockBuffer N heap bytes a = heap a := by
  rw [blockBuffer, Mem.store_ge _ 0 _ _ (by omega), Mem.store_ge _ 0 _ _ (by simpa using h1)]

/-- **Nothing less than the payload will do.** If a block buffer gives `v` whatever follows the
bytes delivered, at least `encodedSize v` bytes were delivered: the last data byte the decoder
reads would otherwise be an arbitrary one. -/
theorem encodedSize_le_of_decompress {v : Chunk} (hpos : 0 < v.length) (h : v.length < 2 ^ 32)
    (bytes : List UInt8)
    (hall : ∀ heap, Chunk.decompress (blockBuffer (UInt32.ofNat v.length) heap bytes)
      (UInt32.ofNat v.length) = v) :
    encodedSize v ≤ bytes.length := by
  set N := UInt32.ofNat v.length with hNdef
  have hN : N.toNat = v.length := ofNat_length_toNat h
  have hraws : ∀ heap, rawsAt (blockBuffer N heap bytes) 0 0 (keyLen N) v.length
      = chunkDeltas v := by
    intro heap
    have := congrArg (deltas 0) (hall heap)
    rwa [Chunk.decompress, streamvbyteDeltaDecode_eq, deltas_undeltas, hN] at this
  by_contra hlt
  set m : Mem := blockBuffer N (fun _ => 0) bytes with hm
  set e := dataEnd m 0 0 (keyLen N) v.length with he
  have hsize : encodedSize v ≤ e := by
    have := dataSize_rawsAt_le m 0 0 (keyLen N) v.length
    rw [hraws] at this
    exact this
  have hend := le_dataEnd m 0 0 (keyLen N) v.length
  rw [← he] at hend
  have hkl : keyLen N = (v.length + 3) % 2 ^ 32 / 4 := by rw [keyLen_toNat, hN]
  -- the same buffer with another byte in the last place
  set m' : Mem := blockBuffer N (fun a => if a + 1 = e then 1 else 0) bytes with hm'
  have hbyte : ∀ a, a + 1 = e → m a ≠ m' a := by
    intro a ha
    rw [hm, hm', blockBuffer_ge _ _ _ _ (by omega) (by omega),
      blockBuffer_ge _ _ _ _ (by omega) (by omega), if_pos ha]
    decide
  have hsame : ∀ a, a + 1 ≠ e → m a = m' a := by
    intro a ha
    rcases Nat.lt_or_ge a bytes.length with h1 | h1
    · have e1 := blockBuffer_lt N (fun _ => 0) bytes a h1
      rw [blockBuffer_lt N (fun a => if a + 1 = e then 1 else 0) bytes a h1] at e1
      exact (Option.some.inj e1).symm
    · rw [hm, hm', blockBuffer, blockBuffer, Mem.store_ge _ 0 bytes a (by omega),
        Mem.store_ge _ 0 bytes a (by omega)]
      simp only [Mem.store, if_neg ha]
  obtain ⟨n, hn⟩ : ∃ n, v.length = n + 1 := ⟨v.length - 1, by omega⟩
  have hne : rawsAt m 0 0 (keyLen N) (n + 1) ≠ rawsAt m' 0 0 (keyLen N) (n + 1) := by
    refine rawsAt_ne_of_last 0 0 (keyLen N) n ?_ ?_ ?_ <;> rw [← hn, ← he]
    · intro j _ hj
      omega
    · exact hsame
    · exact hbyte
  rw [← hn] at hne
  exact hne ((hraws _).trans (hraws _).symm)

end Tool

end CSearch
