import CSearch.Tool.Chunk

set_option autoImplicit false

/-! # Records: a header and a compressed chunk

`ifile` and `document` both read their files record by record: a header of fixed size into a
`struct`, then the chunk it announces through `chunk::read_block`. `readRecord` is that common
part; the header is given by its layout (`HeadCodec`).

`read_block` does not look at the byte count in the header. It asks for four bytes per value, so
it takes more than the payload of most records and less than that of some; and it stores them in an
object of a single byte. `readsBack_iff` says exactly which files are read back: at least one record,
all records but the last with payloads of exactly four bytes per value, the last one with a shorter
payload, so that the read runs into the end of the file, and no payload larger than what can be
stored in that byte and the ones behind it. Without such bytes no file is read back
(`not_aligned_zero`).
-/

namespace CSearch.Tool

open StreamVByte

/-! ## Headers -/

/-- A header `struct` on disk: its size, its bytes, and the two fields `read_block` is given. -/
structure HeadCodec (η : Type) where
  size : Nat
  toBytes : η → List UInt8
  ofBytes : List UInt8 → η
  count : η → UInt32
  bcount : η → UInt32
  length_toBytes : ∀ h, (toBytes h).length = size
  ofBytes_toBytes : ∀ h, ofBytes (toBytes h) = h

section

variable {η : Type} (hc : HeadCodec η)

/-- `fs->read( (char *)&h, sizeof(h) )`: a short read leaves the rest of `h` as it was. -/
def readHead (fs : FStream) (h : η) : η × FStream :=
  let r := fs.read hc.size
  (hc.ofBytes (r.1 ++ (hc.toBytes h).drop r.1.length), r.2)

/-- What a record is read into, and the memory allocated next. -/
structure RecState (η : Type) where
  fs : FStream
  h : η
  c : Chunk
  heap : Heap

/-- The common part of `ifile::real_read` and `document::read`. -/
def readRecord (s : RecState η) : Option (Bool × RecState η) :=
  if s.fs.eof then some (false, s)
  else
    let r := readHead hc s.fs s.h
    (Chunk.readBlock r.2 (hc.count r.1) (hc.bcount r.1) (s.heap 0) s.heap.slack).map fun b =>
      (true, ⟨b.2, r.1, b.1, s.heap.drop 1⟩)

/-- A record as it is written: header and chunk agree. -/
structure Record where
  head : η
  chunk : Chunk
  pos : 0 < chunk.length
  lt : chunk.length < 2 ^ 32
  count_eq : hc.count head = UInt32.ofNat chunk.length
  bcount_eq : hc.bcount head = (chunk.encode (fun _ => 0)).bcount

variable {hc}

/-- The payload of a record: the first `bcount` bytes of the compressed buffer. -/
def Record.payload (r : Record hc) : List UInt8 :=
  (r.chunk.encode (fun _ => 0)).cbuffer.load 0 (hc.bcount r.head).toNat

/-- The bytes of a record on disk. -/
def Record.bytes (r : Record hc) : List UInt8 := hc.toBytes r.head ++ r.payload

/-- The bytes of a file of records. -/
def fileBytes (rs : List (Record hc)) : List UInt8 := rs.flatMap Record.bytes

theorem Record.bcount_toNat (r : Record hc) :
    (hc.bcount r.head).toNat = encodedSize r.chunk % 2 ^ 32 := by
  rw [r.bcount_eq, encode_bcount_toNat r.lt]

@[simp] theorem Record.payload_length (r : Record hc) :
    r.payload.length = encodedSize r.chunk % 2 ^ 32 := by
  rw [payload, Mem.load_length, r.bcount_toNat]

@[simp] theorem Record.bytes_length (r : Record hc) :
    r.bytes.length = hc.size + encodedSize r.chunk % 2 ^ 32 := by
  rw [bytes, List.length_append, hc.length_toBytes, r.payload_length]

theorem fileBytes_cons (r : Record hc) (rs : List (Record hc)) :
    fileBytes (r :: rs) = r.bytes ++ fileBytes rs := by
  simp [fileBytes]

/-- The number of bytes of a file of records. -/
def fileSize (rs : List (Record hc)) : Nat := (rs.map (fun r => r.bytes.length)).sum

theorem fileSize_cons (r : Record hc) (rs : List (Record hc)) :
    fileSize (r :: rs) = hc.size + encodedSize r.chunk % 2 ^ 32 + fileSize rs := by
  simp [fileSize]

theorem fileBytes_length (rs : List (Record hc)) : (fileBytes rs).length = fileSize rs := by
  simp [fileBytes, fileSize, List.length_flatMap]

/-- The payload does not depend on what was in the buffer before. -/
theorem Record.payload_eq (r : Record hc) (heap : Mem) :
    (r.chunk.encode heap).cbuffer.load 0 (hc.bcount r.head).toNat = r.payload := by
  refine encode_load_congr r.lt heap _ _ ?_
  rw [r.bcount_toNat]
  exact Nat.mod_le _ _

/-! ## Reading one record -/

/-- The next state when the header is complete: `read_block` decides. -/
theorem readRecord_of_head {s : RecState η} (hg : s.fs.Good) {h : η} {more : List UInt8}
    (hrest : s.fs.rest = hc.toBytes h ++ more) :
    readRecord hc s
      = (Chunk.readBlock { s.fs with rest := more } (hc.count h) (hc.bcount h) (s.heap 0)
          s.heap.slack).map fun b => (true, ⟨b.2, h, b.1, s.heap.drop 1⟩) := by
  have hread : s.fs.read hc.size = (hc.toBytes h, { s.fs with rest := more }) := by
    rw [← hc.length_toBytes h]
    exact FStream.read_append hg hrest
  have hhead : readHead hc s.fs s.h = (h, { s.fs with rest := more }) := by
    have hdrop : (hc.toBytes s.h).drop (hc.toBytes h).length = [] := by
      rw [List.drop_eq_nil_iff, hc.length_toBytes, hc.length_toBytes]
    rw [readHead, hread]
    simp only [hdrop, List.append_nil, hc.ofBytes_toBytes]
  unfold readRecord
  rw [hg.eof_eq, hhead]
  rfl

/-- A buffer with the whole payload, if the byte count has not been cut off. -/
theorem Record.holdsPayload (r : Record hc) (h : encodedSize r.chunk < 2 ^ 32) (N : UInt32)
    (heap : Mem) : HoldsPayload (blockBuffer N heap r.payload) r.chunk := by
  refine holdsPayload_of_eq (fun _ => 0) r.lt (fun a ha => ?_)
  rw [encode_written r.lt] at ha
  have hlt : a < r.payload.length := by rw [r.payload_length, Nat.mod_eq_of_lt h]; exact ha
  have h1 := blockBuffer_lt N heap r.payload a hlt
  have h2 : r.payload[a]? = some ((r.chunk.encode (fun _ => 0)).cbuffer (0 + a)) :=
    Mem.load_getElem? _ _ _ _ (by rw [payload, Mem.load_length] at hlt; exact hlt)
  rw [h2, Nat.zero_add] at h1
  exact (Option.some.inj h1).symm

/-- What the last record is read as. -/
theorem Record.decompress_iff (r : Record hc) (h : encodedSize r.chunk < 2 ^ 32) (heap : Mem) :
    Chunk.decompress (blockBuffer (hc.count r.head) heap r.payload) (hc.count r.head) = r.chunk
      ↔ KeysFit r.chunk := by
  rw [r.count_eq]
  exact decompress_iff_keysFit (r.holdsPayload h _ heap) r.lt

theorem Record.count_toNat (r : Record hc) : (hc.count r.head).toNat = r.chunk.length := by
  rw [r.count_eq, ofNat_length_toNat r.lt]

/-- The bytes that `read_block` gets decide. -/
theorem readBlock_of_read {fs fs' : FStream} {N bcount : UInt32} {bytes : List UInt8} {slack : Nat}
    (hread : fs.read (N.toNat * 4) = (bytes, fs')) (hroom : bytes.length ≤ 1 + slack) (heap : Mem) :
    Chunk.readBlock fs N bcount heap slack
      = some (Chunk.decompress (blockBuffer N heap bytes) N, fs') := by
  rw [Chunk.readBlock, hread]
  exact if_pos hroom

/-- A record whose payload has four bytes per value is read exactly. -/
theorem readRecord_exact (r : Record hc) {s : RecState η} (hg : s.fs.Good) {more : List UInt8}
    (hrest : s.fs.rest = r.bytes ++ more) (h4 : encodedSize r.chunk = 4 * r.chunk.length)
    (h32 : encodedSize r.chunk < 2 ^ 32) (hroom : encodedSize r.chunk ≤ 1 + s.heap.slack) :
    readRecord hc s
      = some (true, ⟨{ s.fs with rest := more }, r.head, r.chunk, s.heap.drop 1⟩) := by
  have hpay : r.payload.length = encodedSize r.chunk := by
    rw [r.payload_length, Nat.mod_eq_of_lt h32]
  have hlen : (hc.count r.head).toNat * 4 = r.payload.length := by
    rw [r.count_toNat, hpay]
    omega
  have hread : FStream.read { s.fs with rest := r.payload ++ more } ((hc.count r.head).toNat * 4)
      = (r.payload, { s.fs with rest := more }) := by
    rw [hlen]
    exact FStream.read_append (hg.of_rest _) rfl
  have hfit : KeysFit r.chunk := Or.inl (by omega)
  rw [readRecord_of_head hg (by rw [hrest, Record.bytes, List.append_assoc]),
    readBlock_of_read hread (by rw [hpay]; exact hroom), Option.map_some,
    (r.decompress_iff h32 (s.heap 0)).mpr hfit]

/-- The last record of a file, with a payload of less than four bytes per value. -/
theorem readRecord_last (r : Record hc) {s : RecState η} (hg : s.fs.Good)
    (hrest : s.fs.rest = r.bytes) (h4 : encodedSize r.chunk < 4 * r.chunk.length)
    (h32 : encodedSize r.chunk < 2 ^ 32) (hroom : encodedSize r.chunk ≤ 1 + s.heap.slack) :
    ∃ s', readRecord hc s = some (true, s') ∧ s'.fs.eof = true ∧ s'.h = r.head
      ∧ (s'.c = r.chunk ↔ KeysFit r.chunk) := by
  have hpay : r.payload.length = encodedSize r.chunk := by
    rw [r.payload_length, Nat.mod_eq_of_lt h32]
  have hread : FStream.read { s.fs with rest := r.payload } ((hc.count r.head).toNat * 4)
      = (r.payload, { s.fs with rest := [], eofbit := true, failbit := true }) := by
    refine FStream.read_of_lt (hg.of_rest _) ?_
    show r.payload.length < _
    rw [r.count_toNat, hpay]
    omega
  rw [readRecord_of_head hg (by rw [hrest]; rfl),
    readBlock_of_read hread (by rw [hpay]; exact hroom), Option.map_some]
  exact ⟨_, rfl, rfl, rfl, r.decompress_iff h32 (s.heap 0)⟩

/-- The end of the file is seen by the next call. -/
theorem readRecord_of_eof {s : RecState η} (h : s.fs.eof = true) :
    readRecord hc s = some (false, s) :=
  if_pos h

/-- A call on a good stream does not report the end. -/
theorem readRecord_ne_false {s s' : RecState η} (hg : s.fs.Good) :
    readRecord hc s ≠ some (false, s') := by
  intro h
  unfold readRecord at h
  rw [hg.eof_eq, if_neg Bool.false_ne_true] at h
  obtain ⟨b, -, hb⟩ := Option.map_eq_some_iff.mp h
  exact absurd (congrArg Prod.fst hb) (by simp)

/-- What one successful read takes from a good stream, whatever the memory holds: all the bytes of
the payload, or more; and they have room. -/
theorem readRecord_takes (r : Record hc) {s : RecState η} (hg : s.fs.Good) {slack : Nat}
    (hall : ∀ mem : Nat → Mem, ∃ s', readRecord hc { s with heap := ⟨mem, slack⟩ } = some (true, s')
      ∧ s'.c = r.chunk) :
    ∃ fs h, (∀ mem : Nat → Mem, readRecord hc { s with heap := ⟨mem, slack⟩ }
        = some (true, ⟨fs, h, r.chunk, ⟨fun n => mem (n + 1), slack⟩⟩))
      ∧ hc.size ≤ s.fs.rest.length ∧ encodedSize r.chunk ≤ 1 + slack
      ∧ ((4 * r.chunk.length ≤ s.fs.rest.length - hc.size
          ∧ encodedSize r.chunk ≤ 4 * r.chunk.length ∧ fs.Good
          ∧ fs.rest.length = s.fs.rest.length - hc.size - 4 * r.chunk.length)
        ∨ (s.fs.rest.length - hc.size < 4 * r.chunk.length
          ∧ encodedSize r.chunk ≤ s.fs.rest.length - hc.size ∧ fs.eof = true)) := by
  set h1 := (readHead hc s.fs s.h).1 with hh1
  set fs1 := (readHead hc s.fs s.h).2 with hfs1
  have hfs1' : fs1 = (s.fs.read hc.size).2 := rfl
  set rd := fs1.read ((hc.count h1).toNat * 4) with hrd
  have hstep : ∀ mem : Nat → Mem, readRecord hc { s with heap := ⟨mem, slack⟩ }
      = if rd.1.length ≤ 1 + slack then some (true, ⟨rd.2, h1,
          Chunk.decompress (blockBuffer (hc.count h1) (mem 0) rd.1) (hc.count h1),
          ⟨fun n => mem (n + 1), slack⟩⟩)
        else none := by
    intro mem
    unfold readRecord Chunk.readBlock
    simp only [hg.eof_eq, Bool.false_eq_true, if_false, apply_ite (Option.map _), Option.map_some,
      Option.map_none]
    rfl
  -- the bytes have room, and whatever follows them in memory, the chunk comes out
  have hroom : rd.1.length ≤ 1 + slack := by
    by_contra hno
    obtain ⟨s', hs', -⟩ := hall (fun _ _ => 0)
    rw [hstep, if_neg hno] at hs'
    exact absurd hs' (by simp)
  have hdec : ∀ heap : Mem,
      Chunk.decompress (blockBuffer (hc.count h1) heap rd.1) (hc.count h1) = r.chunk := by
    intro heap
    obtain ⟨s', hs', hc'⟩ := hall (fun _ => heap)
    rw [hstep, if_pos hroom, Option.some.injEq, Prod.mk.injEq] at hs'
    rw [← hc', ← hs'.2]
  -- so the number of values read is the one in the header
  have hcount : hc.count h1 = UInt32.ofNat r.chunk.length := by
    rw [← hdec (fun _ => 0), decompress_length, UInt32.ofNat_toNat]
  have hlen : (hc.count h1).toNat = r.chunk.length := by rw [hcount, ofNat_length_toNat r.lt]
  have hsize : encodedSize r.chunk ≤ rd.1.length := by
    refine encodedSize_le_of_decompress r.pos r.lt _ (fun heap => ?_)
    rw [← hcount]
    exact hdec heap
  have hpos := r.pos
  have hle := length_le_encodedSize r.chunk
  rw [hlen] at hrd
  refine ⟨rd.2, h1, fun mem => by rw [hstep, if_pos hroom, hdec], ?_⟩
  rcases FStream.read_cases hg hc.size with ⟨h1, hg1, -, hrest1⟩ | ⟨-, heof, -⟩
  · rw [← hfs1'] at hg1 hrest1
    refine ⟨h1, by omega, ?_⟩
    rcases FStream.read_cases hg1 (r.chunk.length * 4) with ⟨h2, hg2, hl2, hr2⟩ | ⟨h2, he2, hl2⟩
    · rw [← hrd] at hg2 hl2 hr2
      exact Or.inl ⟨by omega, by omega, hg2, by rw [hr2, hrest1]; omega⟩
    · rw [← hrd] at he2 hl2
      exact Or.inr ⟨by omega, by omega, he2⟩
  · -- the header was cut off: nothing is left for the payload
    rw [← hfs1'] at heof
    rw [hrd, FStream.read_of_eof heof, List.length_nil] at hsize
    omega

/-! ## Which files are read back -/

/-- The sizes a file of records must have: payloads of four bytes per value, and a shorter one at
the end, all of which have room. -/
def SizesAligned (slack : Nat) : List Chunk → Prop
  | [] => False
  | [v] => encodedSize v < 2 ^ 32 ∧ encodedSize v ≤ 1 + slack ∧ encodedSize v < 4 * v.length
  | v :: w :: vs => encodedSize v < 2 ^ 32 ∧ encodedSize v ≤ 1 + slack
      ∧ encodedSize v = 4 * v.length ∧ SizesAligned slack (w :: vs)

/-- The condition under which a file of records is read back. -/
def Aligned (slack : Nat) : List Chunk → Prop
  | [] => False
  | [v] => encodedSize v < 2 ^ 32 ∧ encodedSize v ≤ 1 + slack
      ∧ encodedSize v < 4 * v.length ∧ KeysFit v
  | v :: w :: vs => encodedSize v < 2 ^ 32 ∧ encodedSize v ≤ 1 + slack
      ∧ encodedSize v = 4 * v.length ∧ Aligned slack (w :: vs)

/-- The condition without the recursion. -/
theorem aligned_iff (slack : Nat) (vs : List Chunk) :
    Aligned slack vs ↔ vs ≠ []
      ∧ (∀ v ∈ vs, encodedSize v < 2 ^ 32 ∧ encodedSize v ≤ 1 + slack)
      ∧ (∀ v ∈ vs.dropLast, encodedSize v = 4 * v.length)
      ∧ (∀ v ∈ vs.getLast?, encodedSize v < 4 * v.length ∧ KeysFit v) := by
  induction vs with
  | nil => simp [Aligned]
  | cons v vs ih =>
      cases vs with
      | nil => simp [Aligned, and_assoc]
      | cons w vs =>
          have hne : w :: vs ≠ [] := List.cons_ne_nil w vs
          rw [Aligned, ih, List.dropLast_cons_of_ne_nil hne, List.getLast?_cons_cons]
          generalize w :: vs = us at hne
          simp only [List.mem_cons, forall_eq_or_imp, ne_eq, hne, reduceCtorEq, not_false_eq_true,
            true_and]
          constructor
          · rintro ⟨h1, h2, h3, h4, h5, h6⟩
            exact ⟨⟨⟨h1, h2⟩, h4⟩, ⟨h3, h5⟩, h6⟩
          · rintro ⟨⟨⟨h1, h2⟩, h4⟩, ⟨h3, h5⟩, h6⟩
            exact ⟨h1, h2, h3, h4, h5, h6⟩

/-- A payload has a key byte and a data byte at least. -/
theorem one_lt_encodedSize {v : Chunk} (hpos : 0 < v.length) (hlt : v.length < 2 ^ 32) :
    1 < encodedSize v := by
  have := length_le_dataSize (chunkDeltas v)
  rw [chunkDeltas_length] at this
  rw [encodedSize, keyLen_toNat, ofNat_length_toNat hlt]
  omega

/-- In a single byte there is no room for any payload. -/
theorem not_aligned_zero (rs : List (Record hc)) : ¬ Aligned 0 (rs.map Record.chunk) := by
  intro h
  obtain ⟨hne, hroom, -⟩ := (aligned_iff 0 _).mp h
  cases rs with
  | nil => exact hne rfl
  | cons r rs =>
      have hle := (hroom r.chunk (List.mem_map_of_mem List.mem_cons_self)).2
      have := one_lt_encodedSize r.pos r.lt
      omega

/-! What the caller sees of a record is given by `view`; it shows the chunk. -/

variable {ω : Type} (view : η → Chunk → ω)

/-- What is seen after a read. -/
def RecState.seen (s : RecState η) : ω := view s.h s.c

/-- What should be seen. -/
def Record.seen (r : Record hc) : ω := view r.head r.chunk

variable (hview : ∀ h h' c c', view h c = view h' c' → c = c')
include hview

/-- With the right sizes, everything depends on the last record. -/
theorem yields_iff_aligned (rs : List (Record hc)) (s : RecState η) (hg : s.fs.Good)
    (hrest : s.fs.rest = fileBytes rs) (hs : SizesAligned s.heap.slack (rs.map Record.chunk)) :
    Yields (readRecord hc) (RecState.seen view) s (rs.map (Record.seen view))
      ↔ Aligned s.heap.slack (rs.map Record.chunk) := by
  induction rs generalizing s with
  | nil => exact absurd hs (by simp [SizesAligned])
  | cons r rs ih =>
      cases rs with
      | nil =>
          -- the last record: its read runs past the end, which must be seen by the next call
          obtain ⟨h32, hroom, h4⟩ := hs
          have hbytes : s.fs.rest = r.bytes := by
            rw [hrest, fileBytes_cons]
            simp [fileBytes]
          obtain ⟨s', h1, h2, h3, hiff⟩ := readRecord_last r hg hbytes h4 h32 hroom
          simp only [List.map_cons, List.map_nil, Yields, Aligned, h1, Option.some.injEq,
            Prod.mk.injEq, true_and, exists_eq_left']
          constructor
          · rintro ⟨hseen, -⟩
            exact ⟨h32, hroom, h4, hiff.mp (hview _ _ _ _ hseen)⟩
          · rintro ⟨-, -, -, hfit⟩
            refine ⟨?_, s', readRecord_of_eof h2⟩
            rw [RecState.seen, h3, hiff.mpr hfit]
            rfl
      | cons r' rs =>
          -- four bytes per value are exactly the payload, so the next record starts in its place
          obtain ⟨h32, hroom, h4, hs'⟩ := hs
          rw [fileBytes_cons] at hrest
          have hstep := readRecord_exact r hg hrest h4 h32 hroom
          have hih := ih ⟨{ s.fs with rest := fileBytes (r' :: rs) }, r.head, r.chunk,
            s.heap.drop 1⟩ (hg.of_rest _) rfl hs'
          rw [List.map_cons, List.map_cons, List.map_cons, Yields, hstep]
          rw [List.map_cons, List.map_cons, Heap.drop_slack] at hih
          constructor
          · rintro ⟨s', hs', -, hy⟩
            rw [Option.some.injEq, Prod.mk.injEq] at hs'
            exact ⟨h32, hroom, h4, hih.mp (hs'.2 ▸ hy)⟩
          · rintro ⟨-, -, -, ha⟩
            exact ⟨_, rfl, rfl, hih.mpr ha⟩

/-- A reader that shows all records must find exactly the bytes they have on disk. -/
theorem sizes_of_yields (rs : List (Record hc)) (s : RecState η) (hg : s.fs.Good) {slack : Nat}
    (hlen : s.fs.rest.length ≤ fileSize rs)
    (hy : ∀ mem : Nat → Mem, Yields (readRecord hc) (RecState.seen view)
      { s with heap := ⟨mem, slack⟩ } (rs.map (Record.seen view))) :
    SizesAligned slack (rs.map Record.chunk) ∧ s.fs.rest.length = fileSize rs := by
  induction rs generalizing s with
  | nil =>
      obtain ⟨s', hs'⟩ := hy (fun _ _ => 0)
      exact absurd hs' (readRecord_ne_false hg)
  | cons r rs ih =>
      rw [fileSize_cons] at hlen ⊢
      have hall : ∀ mem : Nat → Mem, ∃ s', readRecord hc { s with heap := ⟨mem, slack⟩ }
          = some (true, s') ∧ s'.c = r.chunk := by
        intro mem
        obtain ⟨s', hs', hseen, -⟩ := hy mem
        exact ⟨s', hs', hview _ _ _ _ hseen⟩
      obtain ⟨fs', h', hstep, hhead, hroom, hcases⟩ := readRecord_takes r hg hall
      have hmod := Nat.mod_le (encodedSize r.chunk) (2 ^ 32)
      have hmod32 := Nat.mod_lt (encodedSize r.chunk) (show 0 < 2 ^ 32 by norm_num)
      -- the first block buffer can be chosen, and independently all later ones
      have htail : ∀ mem : Nat → Mem, Yields (readRecord hc) (RecState.seen view)
          ⟨fs', h', r.chunk, ⟨mem, slack⟩⟩ (rs.map (Record.seen view)) := by
        intro mem
        obtain ⟨s', hs', -, hrest⟩ := hy (fun n => Nat.casesOn n (fun _ => 0) mem)
        rw [hstep, Option.some.injEq, Prod.mk.injEq] at hs'
        rw [← hs'.2] at hrest
        exact hrest
      rcases hcases with ⟨h1, h2, hg', hrest'⟩ | ⟨h1, h2, heof⟩
      · -- the read did not reach the end, so there must be another record
        cases rs with
        | nil =>
            obtain ⟨s', hs'⟩ := htail (fun _ _ => 0)
            exact absurd hs' (readRecord_ne_false hg')
        | cons r' rs =>
            obtain ⟨hs, htot⟩ := ih ⟨fs', h', r.chunk, ⟨fun _ _ => 0, slack⟩⟩ hg'
              (show fs'.rest.length ≤ _ by omega) htail
            have htot' : fs'.rest.length = fileSize (r' :: rs) := htot
            refine ⟨⟨by omega, hroom, by omega, hs⟩, by omega⟩
      · -- the read reached the end, so this was the last record
        cases rs with
        | nil =>
            have : fileSize ([] : List (Record hc)) = 0 := rfl
            refine ⟨⟨by omega, hroom, by omega⟩, by omega⟩
        | cons r' rs =>
            obtain ⟨s', hs', -⟩ := htail (fun _ _ => 0)
            rw [readRecord_of_eof heof] at hs'
            exact absurd hs' (by simp)

/-- **Which files are read back.** A file of records is read back record by record, whatever the
memory holds, exactly when its sizes are aligned, its payloads have room, and the keys of the last
record fit. -/
theorem readsBack_iff (rs : List (Record hc)) (h0 : η) (c0 : Chunk) (slack : Nat) :
    (∀ mem : Nat → Mem, Yields (readRecord hc) (RecState.seen view)
        ⟨FStream.openIn (fileBytes rs), h0, c0, ⟨mem, slack⟩⟩ (rs.map (Record.seen view)))
      ↔ Aligned slack (rs.map Record.chunk) := by
  have hgood := FStream.openIn_good (fileBytes rs)
  constructor
  · intro hy
    have hs := (sizes_of_yields view hview rs
      ⟨FStream.openIn (fileBytes rs), h0, c0, ⟨fun _ _ => 0, slack⟩⟩ hgood
      (by rw [FStream.openIn_rest, fileBytes_length]) hy).1
    exact (yields_iff_aligned view hview rs
      ⟨FStream.openIn (fileBytes rs), h0, c0, ⟨fun _ _ => 0, slack⟩⟩ hgood rfl hs).mp
        (hy (fun _ _ => 0))
  · intro ha mem
    refine (yields_iff_aligned view hview rs
      ⟨FStream.openIn (fileBytes rs), h0, c0, ⟨mem, slack⟩⟩ hgood rfl ?_).mpr ha
    -- aligned files have aligned sizes
    show SizesAligned slack _
    generalize rs.map Record.chunk = vs at ha
    induction vs with
    | nil => exact ha
    | cons v vs ih =>
        cases vs with
        | nil => exact ⟨ha.1, ha.2.1, ha.2.2.1⟩
        | cons w vs => exact ⟨ha.1, ha.2.1, ha.2.2.1, ih ha.2.2.2⟩

end

end CSearch.Tool
