import CSearch.Tool.Chunk

set_option autoImplicit false

/-! # Index files

An index file is a sequence of blocks. A block is a header of four 32-bit fields (`N`, `term`,
`doc`, `bcount`) and `bcount` bytes of payload, the compressed form of `N` documents of one term.
The C++ class `ifile` and the `ifile_t` of `tool.c` share this format.

A value of `Block` carries the proof that it is well formed, so that a list of blocks is an index
file, and `Block.tuples` is what it stands for. `Block.ofChunk` is the block made of a chunk.
-/

namespace CSearch

open StreamVByte

/-- `tupe`: a term and a document it occurs in. -/
structure Tupe where
  term : UInt32
  doc : UInt32
  deriving DecidableEq, Repr

/-- The order of the tuples in an index: by term, and by document within a term. -/
def Tupe.le (a b : Tupe) : Prop := a.term < b.term ∨ a.term = b.term ∧ a.doc ≤ b.doc

instance : DecidableRel Tupe.le := fun a b =>
  inferInstanceAs (Decidable (a.term < b.term ∨ a.term = b.term ∧ a.doc ≤ b.doc))

/-- `chunk_head`: the header of a block. -/
structure ChunkHead where
  N : UInt32
  term : UInt32
  doc : UInt32
  bcount : UInt32
  deriving DecidableEq, Repr

namespace ChunkHead

/-- The 16 bytes of the `struct`. -/
def toBytes (h : ChunkHead) : List UInt8 := leWords [h.N, h.term, h.doc, h.bcount]

/-- The `struct` in 16 bytes. -/
def ofBytes (bs : List UInt8) : ChunkHead :=
  ⟨wordAt bs 0, wordAt bs 1, wordAt bs 2, wordAt bs 3⟩

@[simp] theorem toBytes_length (h : ChunkHead) : h.toBytes.length = 16 := leWords_length _

@[simp] theorem ofBytes_toBytes (h : ChunkHead) : ofBytes h.toBytes = h := by
  have hw := wordAt_leWords [h.N, h.term, h.doc, h.bcount]
  simp only [ofBytes, toBytes, hw 0 h.N rfl, hw 1 h.term rfl, hw 2 h.doc rfl, hw 3 h.bcount rfl]

end ChunkHead

/-- A well-formed block: the payload has the announced length and decompresses to the announced
number of documents, whatever follows it in memory. -/
structure Block where
  head : ChunkHead
  payload : List UInt8
  docs : List UInt32
  docs_ne : docs ≠ []
  N_eq : head.N.toNat = docs.length
  bcount_eq : head.bcount.toNat = payload.length
  decodes : ∀ mem : Mem, mem.Holds 0 payload → (streamvbyteDeltaDecode mem head.N 0).1 = docs

namespace Block

/-- The bytes of a block on disk. -/
def bytes (b : Block) : List UInt8 := b.head.toBytes ++ b.payload

/-- What a block stands for. -/
def tuples (b : Block) : List Tupe := b.docs.map (Tupe.mk b.head.term)

@[simp] theorem tuples_length (b : Block) : b.tuples.length = b.docs.length := by
  simp [tuples]

/-- The block whose payload is the compressed form of a chunk. -/
def ofChunk (term doc : UInt32) (v : List UInt32) (heap : Mem) (hne : v ≠ [])
    (hN : v.length + 3 < 2 ^ 32) (hsize : encodedSize v < 2 ^ 32) : Block where
  head := ⟨UInt32.ofNat v.length, term, doc, (Tool.Chunk.encode v heap).bcount⟩
  payload := (Tool.Chunk.encode v heap).cbuffer.load 0
    (Tool.Chunk.encode v heap).bcount.toNat
  docs := v
  docs_ne := hne
  N_eq := ofNat_length_toNat (by omega)
  bcount_eq := by rw [Mem.load_length]
  decodes := by
    intro mem hmem
    have hlen : v.length < 2 ^ 32 := by omega
    have hpay : Tool.HoldsPayload mem v := by
      refine Tool.holdsPayload_of_eq heap hlen (fun a ha => ?_)
      have hlt : a < (Tool.Chunk.encode v heap).bcount.toNat := by
        rw [Tool.encode_written hlen] at ha
        rw [Tool.encode_bcount_toNat hlen, Nat.mod_eq_of_lt hsize]
        exact ha
      have h := hmem a (by rw [Mem.load_length]; exact hlt)
      rw [Mem.load_getElem? _ _ _ _ hlt, Nat.zero_add] at h
      exact (Option.some.inj h).symm
    rw [Tool.decode_of_holdsPayload hpay hN]

theorem ofChunk_payload_length (term doc : UInt32) (v : List UInt32) (heap : Mem) (hne : v ≠ [])
    (hN : v.length + 3 < 2 ^ 32) (hsize : encodedSize v < 2 ^ 32) :
    (ofChunk term doc v heap hne hN hsize).payload.length = encodedSize v := by
  show (Mem.load _ 0 _).length = encodedSize v
  rw [Mem.load_length, Tool.encode_bcount_toNat (by omega), Nat.mod_eq_of_lt hsize]

/-- A block can be told from what follows it. -/
theorem bytes_append_inj {b b' : Block} {r r' : List UInt8}
    (h : b.bytes ++ r = b'.bytes ++ r') : b = b' ∧ r = r' := by
  rw [bytes, bytes, List.append_assoc, List.append_assoc] at h
  obtain ⟨hhead, hrest⟩ := List.append_inj h (by rw [ChunkHead.toBytes_length,
    ChunkHead.toBytes_length])
  have hh : b.head = b'.head := by
    rw [← ChunkHead.ofBytes_toBytes b.head, hhead, ChunkHead.ofBytes_toBytes]
  have hlen : b.payload.length = b'.payload.length := by rw [← b.bcount_eq, ← b'.bcount_eq, hh]
  obtain ⟨hpay, hr⟩ := List.append_inj hrest hlen
  refine ⟨?_, hr⟩
  have hdocs : b.docs = b'.docs := by
    have hholds := Mem.holds_store (fun _ => 0) 0 b.payload
    rw [← b.decodes _ hholds, hh]
    rw [hpay] at hholds
    rw [hpay, b'.decodes _ hholds]
  cases b
  cases b'
  simp only at hh hpay hdocs
  subst hh hpay hdocs
  rfl

theorem bytes_ne_nil (b : Block) : b.bytes ≠ [] := by
  intro h
  have := congrArg List.length h
  rw [bytes, List.length_append, ChunkHead.toBytes_length, List.length_nil] at this
  omega

/-- **An index file has one reading**: its bytes determine its blocks. -/
theorem flatMap_bytes_inj {bs bs' : List Block}
    (h : bs.flatMap bytes = bs'.flatMap bytes) : bs = bs' := by
  induction bs generalizing bs' with
  | nil =>
      cases bs' with
      | nil => rfl
      | cons b' bs' =>
          rw [List.flatMap_nil, List.flatMap_cons] at h
          exact absurd (List.append_eq_nil_iff.mp h.symm).1 b'.bytes_ne_nil
  | cons b bs ih =>
      cases bs' with
      | nil =>
          rw [List.flatMap_nil, List.flatMap_cons] at h
          exact absurd (List.append_eq_nil_iff.mp h).1 b.bytes_ne_nil
      | cons b' bs' =>
          rw [List.flatMap_cons, List.flatMap_cons] at h
          obtain ⟨hb, hbs⟩ := bytes_append_inj h
          rw [hb, ih hbs]

end Block

/-- A chunk of a few values has a small payload. -/
theorem encodedSize_lt_of_length {v : List UInt32} (h : v.length ≤ 2 ^ 29) :
    encodedSize v < 2 ^ 32 := by
  have := dataSize_le (chunkDeltas v)
  rw [chunkDeltas_length] at this
  rw [encodedSize, keyLen_of_lt (by omega)]
  omega

end CSearch
