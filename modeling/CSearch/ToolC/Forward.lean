import CSearch.Basic.Runs
import CSearch.ToolC.Chunk

set_option autoImplicit false

/-! # Forward documents of `tool.c`

A forward document is an id and a chunk of terms. `iforward_write` writes a header of three 32-bit
fields (`N`, `bcount`, `id`) and the compressed terms, `iforward_read` reads them back.

The terms do come back (`yields_documents`): id, `N` and the first `N` values of the buffer are
those of the document. But `read_block` leaves their number in `h.N` and `cap` only, and not in
`size`, so that `chunk_size` of what was read is `0` (`roundTrip_iff`).

`forward_push_term` ignores that a chunk reports itself full, and a full chunk is not enlarged. So a
document has room for 256 terms (`pushesWithin_iff`).
-/

namespace CSearch.ToolC

open StreamVByte

/-! ## The functions of the source -/

/-- `forward_head_t`. -/
structure ForwardHead where
  N : UInt32
  bcount : UInt32
  id : UInt32
  deriving DecidableEq, Repr

namespace ForwardHead

/-- The 12 bytes of the `struct`. -/
def toBytes (h : ForwardHead) : List UInt8 := leWords [h.N, h.bcount, h.id]

/-- The `struct` in 12 bytes. -/
def ofBytes (bs : List UInt8) : ForwardHead := ⟨wordAt bs 0, wordAt bs 1, wordAt bs 2⟩

@[simp] theorem toBytes_length (h : ForwardHead) : h.toBytes.length = 12 := leWords_length _

@[simp] theorem ofBytes_toBytes (h : ForwardHead) : ofBytes h.toBytes = h := by
  have hw := wordAt_leWords [h.N, h.bcount, h.id]
  simp only [ofBytes, toBytes, hw 0 h.N rfl, hw 1 h.bcount rfl, hw 2 h.id rfl]

end ForwardHead

/-- `forward_t`. -/
structure ForwardT where
  h : ForwardHead
  chunk : ChunkT

namespace ForwardT

/-- A document as `memset` leaves it. -/
def zero : ForwardT := ⟨⟨0, 0, 0⟩, ChunkT.zero⟩

/-- `forward_push_term`. -/
def pushTerm (f : ForwardT) (term : UInt32) (heap : Mem) : ForwardT :=
  { f with chunk := (f.chunk.push term heap).2 }

/-- `forward_set_id`. -/
def setId (f : ForwardT) (id : UInt32) : ForwardT := { f with h := { f.h with id := id } }

/-- A sequence of calls of `forward_push_term`. -/
def pushTerms (f : ForwardT) (heap : Nat → Mem) : List UInt32 → ForwardT
  | [] => f
  | t :: ts => (f.pushTerm t (heap 0)).pushTerms (fun n => heap (n + 1)) ts

end ForwardT

/-- `chunk_size`. -/
def ChunkT.chunkSize (c : ChunkT) : Int32 := c.size.toInt32

/-- `iforward_t`. `heap` is the memory the next allocations return. -/
structure IforwardT where
  file : CFile
  heap : Heap

namespace IforwardT

/-- The memory after `n` allocations. -/
def skip (f : IforwardT) (n : Nat) : IforwardT := { f with heap := f.heap.drop n }

/-- `iforward_write`. -/
def write (f : IforwardT) (d : ForwardT) : Option (IforwardT × ForwardT) :=
  (d.chunk.compress (f.heap 0) f.heap.slack).map fun r =>
    let h := { d.h with bcount := r.2, N := d.chunk.chunkSize.toUInt32 }
    ({ f.skip 1 with file := (f.file.fwrite h.toBytes).fwrite (r.1.load 0 h.bcount.toNat) },
      { d with h := h })

/-- `iforward_read`. An incomplete header overwrites the front of `h`. -/
def read (f : IforwardT) (d : ForwardT) : Option (Int32 × IforwardT × ForwardT) :=
  let r := f.file.fread 12
  let h := ForwardHead.ofBytes (r.1 ++ d.h.toBytes.drop r.1.length)
  if r.2.1 = 0 then some (-1, { f with file := r.2.2 }, { d with h := h })
  else
    (ChunkT.readBlock r.2.2 h.N h.bcount d.chunk (f.heap 0) (f.heap 1) f.heap.slack).map fun b =>
      (0, { f.skip 2 with file := b.2 }, ⟨h, b.1⟩)

end IforwardT

/-! ## The round trip -/

/-- A document to be written: an id and one to 256 terms. -/
structure ForwardDoc where
  id : UInt32
  terms : List UInt32
  ne : terms ≠ []
  le : terms.length ≤ 256

namespace ForwardDoc

/-- The document is made from an empty one. -/
def build (d : ForwardDoc) (heap : Nat → Mem) : ForwardT :=
  (ForwardT.zero.setId d.id).pushTerms heap d.terms

end ForwardDoc

namespace IforwardT

/-- Documents are made and written one after the other. -/
def writeAll (f : IforwardT) : List ForwardDoc → Option IforwardT
  | [] => some f
  | d :: ds => ((f.skip d.terms.length).write (d.build f.heap.mem)).bind fun r => r.1.writeAll ds

/-- The next document is read into an empty one. -/
def next (s : IforwardT × ForwardT) : Option (Bool × IforwardT × ForwardT) :=
  (s.1.read ForwardT.zero).map fun r => (r.1 == 0, r.2)

/-- The file with these bytes, before the first call. -/
def openIn (bytes : List UInt8) (heap : Heap) : IforwardT × ForwardT :=
  (⟨⟨bytes, []⟩, heap⟩, ForwardT.zero)

/-- What is to come back: the id, `chunk_size` and as many values of the buffer. -/
def seen (s : IforwardT × ForwardT) : UInt32 × Int32 × List UInt32 :=
  (s.2.h.id, s.2.chunk.chunkSize, s.2.chunk.contents)

/-- The documents are written, and come back in order, and nothing else does. -/
def RoundTrip (slack : Nat) (ds : List ForwardDoc) : Prop :=
  ∀ wmem rmem : Nat → Mem, ∃ f, (⟨⟨[], []⟩, ⟨wmem, slack⟩⟩ : IforwardT).writeAll ds = some f
    ∧ Yields next seen (openIn f.file.written ⟨rmem, slack⟩)
      (ds.map (fun d => (d.id, Int32.ofNat d.terms.length, d.terms)))

end IforwardT

/-! ## Writing -/

namespace ForwardT

theorem pushTerms_spec (f : ForwardT) (heap : Nat → Mem) (ts : List UInt32) (hfit : f.chunk.Fits)
    (hle : f.chunk.size.toNat + ts.length ≤ 256) :
    (f.pushTerms heap ts).h = f.h ∧ (f.pushTerms heap ts).chunk.Fits
      ∧ (f.pushTerms heap ts).chunk.contents = f.chunk.contents ++ ts := by
  induction ts generalizing f heap with
  | nil => exact ⟨rfl, hfit, (List.append_nil _).symm⟩
  | cons t ts ih =>
      rw [List.length_cons] at hle
      have hlt : f.chunk.size.toNat < 256 := by omega
      have hcont := ChunkT.push_contents hfit hlt t (heap 0)
      have hsize : (f.pushTerm t (heap 0)).chunk.size.toNat = f.chunk.size.toNat + 1 := by
        rw [← ChunkT.contents_length, pushTerm, hcont, List.length_append, ChunkT.contents_length,
          List.length_singleton]
      obtain ⟨hh, hf, hc⟩ := ih (f.pushTerm t (heap 0)) (fun n => heap (n + 1))
        (ChunkT.push_fits hlt t (heap 0)) (by omega)
      refine ⟨hh, hf, ?_⟩
      rw [pushTerms, hc, pushTerm, hcont, List.append_assoc, List.singleton_append]

theorem pushTerms_concat (f : ForwardT) (heap : Nat → Mem) (ts : List UInt32) (t : UInt32) :
    f.pushTerms heap (ts ++ [t]) = (f.pushTerms heap ts).pushTerm t (heap ts.length) := by
  induction ts generalizing f heap with
  | nil => rfl
  | cons u ts ih =>
      rw [List.cons_append, pushTerms, ih]
      rfl

/-- Up to 256 terms are in the chunk, and inside its allocation. -/
theorem zero_pushTerms (heap : Nat → Mem) {ts : List UInt32} (h : ts.length ≤ 256) :
    (zero.pushTerms heap ts).chunk.Fits ∧ (zero.pushTerms heap ts).chunk.contents = ts
      ∧ (zero.pushTerms heap ts).chunk.size.toNat = ts.length := by
  have hle : zero.chunk.size.toNat + ts.length ≤ 256 := by
    show 0 + ts.length ≤ 256
    omega
  obtain ⟨-, hfit, hc⟩ := pushTerms_spec zero heap ts (Nat.le_refl 0) hle
  have hcont : (zero.pushTerms heap ts).chunk.contents = ts := hc
  refine ⟨hfit, hcont, ?_⟩
  rw [← ChunkT.contents_length, hcont]

/-! ## Any number of terms -/

/-- **Terms are pushed inside the allocation**: after every call the chunk has exactly the terms
pushed so far and no more of them than are allocated, and the term was stored at an allocated
index. -/
def PushesWithin (ts : List UInt32) : Prop :=
  ∀ heap : Nat → Mem, AtEach (fun pre t =>
    let f := zero.pushTerms heap pre
    let f' := f.pushTerm t (heap pre.length)
    f'.chunk.size ≤ f'.chunk.cap ∧ f.chunk.size < f'.chunk.cap
      ∧ f'.chunk.contents = pre ++ [t]) ts

/-- After 256 terms the allocation is used up. -/
theorem cap_of_full (heap : Nat → Mem) {ts : List UInt32} (h : ts.length = 256) :
    (zero.pushTerms heap ts).chunk.cap = 256 := by
  obtain ⟨ts, t, rfl⟩ := (List.eq_nil_or_concat' ts).resolve_left
    (fun hnil => by rw [hnil] at h; exact absurd h (by decide))
  rw [List.length_append, List.length_singleton] at h
  obtain ⟨-, -, hsize⟩ := zero_pushTerms heap (show ts.length ≤ 256 by omega)
  rw [pushTerms_concat]
  exact ChunkT.push_cap (by omega) t _

theorem pushesWithin_of_le {ts : List UInt32} (h : ts.length ≤ 256) : PushesWithin ts := by
  intro heap pre t post hts
  have hpre : pre.length < 256 := by
    rw [hts, List.length_append, List.length_cons] at h
    omega
  obtain ⟨hfit, hcont, hsize⟩ := zero_pushTerms heap hpre.le
  have hlt : (zero.pushTerms heap pre).chunk.size.toNat < 256 := by omega
  refine ⟨?_, ?_, ?_⟩
  · exact UInt32.le_iff_toNat_le.mpr (ChunkT.push_fits hlt t _)
  · rw [UInt32.lt_iff_toNat_lt, pushTerm, ChunkT.push_cap hlt]
    exact hlt
  · rw [pushTerm, ChunkT.push_contents hfit hlt, hcont]

/-- The term after the 256th is stored behind the allocation. -/
theorem not_pushesWithin_of_lt {ts : List UInt32} (h : 256 < ts.length) : ¬ PushesWithin ts := by
  intro hw
  have hsplit : ts = ts.take 256 ++ ts[256] :: ts.drop 257 := by
    rw [← List.drop_eq_getElem_cons h, List.take_append_drop]
  have hlen : (ts.take 256).length = 256 := by
    rw [List.length_take]
    omega
  obtain ⟨-, hlt, -⟩ := hw (fun _ _ => 0) _ _ _ hsplit
  obtain ⟨-, -, hsize⟩ := zero_pushTerms (fun _ _ => 0) hlen.le
  rw [hlen] at hsize
  have hcap := cap_of_full (fun _ _ => 0) hlen
  have hfull := ChunkT.push_cap_of_full (UInt32.toNat_inj.mp hsize) hcap ts[256] (fun _ => 0)
  rw [UInt32.lt_iff_toNat_lt, hsize] at hlt
  simp only [pushTerm, hfull] at hlt
  exact absurd hlt (by decide)

/-- **How many terms `forward_push_term` has room for**: 256. -/
theorem pushesWithin_iff (ts : List UInt32) : PushesWithin ts ↔ ts.length ≤ 256 := by
  constructor
  · intro hw
    by_contra h
    exact not_pushesWithin_of_lt (by omega) hw
  · exact pushesWithin_of_le

/-- 257 terms: the last one is stored at index 256 of an allocation of 256. -/
theorem not_pushesWithin_257 : ¬ PushesWithin (List.replicate 257 1) :=
  not_pushesWithin_of_lt (by rw [List.length_replicate]; decide)

end ForwardT

/-- A document that has been made has its id and its terms. -/
theorem ForwardDoc.build_spec (d : ForwardDoc) (heap : Nat → Mem) :
    (d.build heap).h.id = d.id ∧ (d.build heap).chunk.contents = d.terms := by
  have hle : (ForwardT.zero.setId d.id).chunk.size.toNat + d.terms.length ≤ 256 := by
    show 0 + d.terms.length ≤ 256
    rw [Nat.zero_add]
    exact d.le
  obtain ⟨hh, -, hc⟩ := ForwardT.pushTerms_spec (ForwardT.zero.setId d.id) heap d.terms
    (Nat.le_refl 0) hle
  rw [build, hh, hc]
  exact ⟨rfl, rfl⟩

namespace IforwardT

/-- A document on disk: the payload is that of an index block. -/
def recordBytes (id : UInt32) (b : Block) : List UInt8 :=
  (⟨b.head.N, b.head.bcount, id⟩ : ForwardHead).toBytes ++ b.payload

/-- `iforward_write` passes the assertion of `chunk_compress` and writes the document, if it fits. -/
theorem write_spec (f : IforwardT) (d : ForwardDoc) (heap : Nat → Mem)
    (hfits : Tool.FitsWithin f.heap.slack d.terms) :
    ∃ (f' : IforwardT) (d' : ForwardT) (b : Block), f.write (d.build heap) = some (f', d')
      ∧ b.docs = d.terms ∧ b.payload.length ≤ 4 * b.docs.length + f.heap.slack
      ∧ f'.heap.slack = f.heap.slack
      ∧ f'.file.written = f.file.written ++ recordBytes d.id b := by
  obtain ⟨hid, hterms⟩ := d.build_spec heap
  set c := (d.build heap).chunk with hc
  have hne : c.contents ≠ [] := hterms ▸ d.ne
  have hle : c.contents.length ≤ 256 := hterms ▸ d.le
  have hsize : encodedSize c.contents < 2 ^ 32 := encodedSize_lt_of_length (by omega)
  have hN : c.chunkSize.toUInt32 = UInt32.ofNat c.contents.length := by
    rw [ChunkT.contents_length, UInt32.ofNat_toNat, ChunkT.chunkSize, UInt32.toUInt32_toInt32]
  rw [← hterms] at hfits
  rw [write, ← hc, ChunkT.compress_of_fits hne hfits, Option.map_some]
  refine ⟨_, _, Block.ofChunk 0 0 c.contents (f.heap 0) hne (by omega) hsize, rfl, hterms, ?_, rfl,
    ?_⟩
  · rw [Block.ofChunk_payload_length]
    exact (Tool.fitsWithin_iff (show c.contents.length < 2 ^ 32 by omega) _).mp hfits
  · show (f.file.written ++ _) ++ _ = _
    rw [List.append_assoc, recordBytes, hN, ← hid]
    rfl

/-- **All documents.** -/
theorem writeAll_spec (f : IforwardT) (ds : List ForwardDoc)
    (hfits : ∀ d ∈ ds, Tool.FitsWithin f.heap.slack d.terms) :
    ∃ (f' : IforwardT) (rs : List (UInt32 × Block)), f.writeAll ds = some f'
      ∧ rs.map (fun r => (r.1, r.2.docs)) = ds.map (fun d => (d.id, d.terms))
      ∧ (∀ r ∈ rs, r.2.payload.length ≤ 4 * r.2.docs.length + f.heap.slack)
      ∧ f'.file.written = f.file.written ++ rs.flatMap (fun r => recordBytes r.1 r.2) := by
  induction ds generalizing f with
  | nil =>
      exact ⟨f, [], rfl, rfl, fun r hr => absurd hr List.not_mem_nil, (List.append_nil _).symm⟩
  | cons d ds ih =>
      obtain ⟨hd, hds⟩ := List.forall_mem_cons.mp hfits
      obtain ⟨f₁, d₁, b, hw, hb, hroom, hslack, hf₁⟩ :=
        (f.skip d.terms.length).write_spec d f.heap.mem hd
      have hslack' : f₁.heap.slack = f.heap.slack := hslack
      obtain ⟨f', rs, hall, hrs, hrooms, hf'⟩ := ih f₁ (by rw [hslack']; exact hds)
      rw [hslack'] at hrooms
      refine ⟨f', (d.id, b) :: rs, ?_, ?_, List.forall_mem_cons.mpr ⟨hroom, hrooms⟩, ?_⟩
      · rw [writeAll, hw, Option.bind_some, hall]
      · rw [List.map_cons, List.map_cons, hrs, hb]
      · rw [hf', hf₁, List.flatMap_cons, ← List.append_assoc]
        rfl

/-! ## Reading -/

/-- `iforward_read` returns `0` or `-1`. -/
theorem read_fst {f : IforwardT} {d : ForwardT} {r : Int32 × IforwardT × ForwardT}
    (h : f.read d = some r) : r.1 = 0 ∨ r.1 = -1 := by
  unfold read at h
  dsimp only at h
  split at h
  · rw [← Option.some.inj h]
    exact Or.inr rfl
  · obtain ⟨b, -, rfl⟩ := Option.map_eq_some_iff.mp h
    exact Or.inl rfl

/-- A document on disk is read into an unused one. -/
theorem read_spec {f : IforwardT} {d : ForwardT} {id : UInt32} {b : Block} {bytes : List UInt8}
    (hd : d.chunk.size = 0) (h : f.file.rest = recordBytes id b ++ bytes)
    (hroom : b.payload.length ≤ 4 * b.docs.length + f.heap.slack) :
    ∃ c, f.read d = some (0, { f.skip 2 with file := { f.file with rest := bytes } },
        ⟨⟨b.head.N, b.head.bcount, id⟩, c⟩)
      ∧ c.size = 0 ∧ c.cap = b.head.N ∧ ∀ i x, b.docs[i]? = some x → c.buffer i = x := by
  set hh : ForwardHead := ⟨b.head.N, b.head.bcount, id⟩ with hhh
  have hrest : f.file.rest = hh.toBytes ++ (b.payload ++ bytes) := by
    rw [h, recordBytes, List.append_assoc]
  have hhead := CFile.fread_append hrest
  have hpay : CFile.fread { f.file with rest := b.payload ++ bytes } b.payload.length
      = (b.payload, 1, { f.file with rest := bytes }) := CFile.fread_append rfl
  rw [ForwardHead.toBytes_length] at hhead
  have hof : ForwardHead.ofBytes (hh.toBytes ++ d.h.toBytes.drop hh.toBytes.length) = hh := by
    rw [List.drop_eq_nil_of_le (by simp), List.append_nil, ForwardHead.ofBytes_toBytes]
  have hspec := ChunkT.decompress_spec hd b.N_eq b.docs_ne
    (b.decodes _ (Mem.holds_store (f.heap 0) 0 b.payload)) (f.heap 1)
  have hbcount : hh.bcount.toNat = b.payload.length := b.bcount_eq
  have hroom' : b.payload.length ≤ hh.N.toNat * 4 + f.heap.slack := by
    rw [show hh.N.toNat = b.docs.length from b.N_eq]
    omega
  refine ⟨_, ?_, hspec⟩
  unfold read
  simp only [hhead, hof, ChunkT.readBlock, hbcount, hpay, if_pos hroom']
  rfl

theorem next_nil {s : IforwardT × ForwardT} (h : s.1.file.rest = []) :
    ∃ s', next s = some (false, s') := by
  unfold next read
  simp only [CFile.fread_nil h (show 0 < 12 by decide)]
  exact ⟨_, rfl⟩

/-- What does come back: the id, `h.N` and as many values of the buffer. -/
def found (s : IforwardT × ForwardT) : UInt32 × UInt32 × List UInt32 :=
  (s.2.h.id, s.2.h.N, (List.range s.2.h.N.toNat).map s.2.chunk.buffer)

theorem yields_records (s : IforwardT × ForwardT) (rs : List (UInt32 × Block))
    (h : s.1.file.rest = rs.flatMap (fun r => recordBytes r.1 r.2))
    (hroom : ∀ r ∈ rs, r.2.payload.length ≤ 4 * r.2.docs.length + s.1.heap.slack) :
    Yields next found s (rs.map (fun r => (r.1, r.2.head.N, r.2.docs))) := by
  induction rs generalizing s with
  | nil => exact next_nil h
  | cons r rs ih =>
      obtain ⟨id, b⟩ := r
      rw [List.flatMap_cons] at h
      obtain ⟨hb, hbs⟩ := List.forall_mem_cons.mp hroom
      obtain ⟨c, hread, -, -, hbuf⟩ := read_spec (show ForwardT.zero.chunk.size = 0 from rfl) h hb
      have hnext : next s = some (true, { s.1.skip 2 with
          file := { s.1.file with rest := rs.flatMap (fun r => recordBytes r.1 r.2) } },
            ⟨⟨b.head.N, b.head.bcount, id⟩, c⟩) := by
        rw [next, hread]
        rfl
      have hdocs : (List.range b.head.N.toNat).map c.buffer = b.docs := by
        rw [b.N_eq]
        apply List.ext_getElem (by simp)
        intro i h1 h2
        rw [List.getElem_map, List.getElem_range]
        exact hbuf i _ (List.getElem?_eq_getElem h2)
      refine ⟨_, hnext, ?_, ih _ rfl hbs⟩
      show (id, b.head.N, (List.range b.head.N.toNat).map c.buffer) = _
      rw [hdocs]

/-- **What comes back of any documents** that fit their buffers: their ids, their numbers of terms in
`h.N`, and their terms in the buffer. -/
theorem yields_documents {slack : Nat} {ds : List ForwardDoc}
    (hfits : ∀ d ∈ ds, Tool.FitsWithin slack d.terms) (wmem rmem : Nat → Mem) :
    ∃ f, (⟨⟨[], []⟩, ⟨wmem, slack⟩⟩ : IforwardT).writeAll ds = some f
      ∧ Yields next found (openIn f.file.written ⟨rmem, slack⟩)
        (ds.map (fun d => (d.id, UInt32.ofNat d.terms.length, d.terms))) := by
  obtain ⟨f, rs, hall, hrs, hroom, hf⟩ := writeAll_spec ⟨⟨[], []⟩, ⟨wmem, slack⟩⟩ ds hfits
  have hmap : rs.map (fun r => (r.1, r.2.head.N, r.2.docs))
      = ds.map (fun d => (d.id, UInt32.ofNat d.terms.length, d.terms)) := by
    have hN : ∀ r : UInt32 × Block, r.2.head.N = UInt32.ofNat r.2.docs.length := by
      intro r
      rw [← r.2.N_eq, UInt32.ofNat_toNat]
    calc rs.map (fun r => (r.1, r.2.head.N, r.2.docs))
        = (rs.map (fun r => (r.1, r.2.docs))).map
            (fun p => (p.1, UInt32.ofNat p.2.length, p.2)) := by
          simp only [List.map_map, Function.comp_def, hN]
      _ = (ds.map (fun d => (d.id, d.terms))).map
            (fun p => (p.1, UInt32.ofNat p.2.length, p.2)) := by rw [hrs]
      _ = ds.map (fun d => (d.id, UInt32.ofNat d.terms.length, d.terms)) := List.map_map
  refine ⟨f, hall, ?_⟩
  rw [← hmap]
  exact yields_records _ rs hf hroom

theorem next_size {s s' : IforwardT × ForwardT} {ok : Bool} (h : next s = some (ok, s')) :
    s'.2.chunk.size = 0 := by
  obtain ⟨r, hr, hs'⟩ := Option.map_eq_some_iff.mp h
  rw [← (Prod.mk.inj hs').2]
  unfold read at hr
  dsimp only at hr
  split at hr
  · rw [← Option.some.inj hr]
    rfl
  · obtain ⟨b, hb, rfl⟩ := Option.map_eq_some_iff.mp hr
    unfold ChunkT.readBlock at hb
    dsimp only at hb
    split at hb
    · rw [← Option.some.inj hb]
      exact ChunkT.decompress_size ForwardT.zero.chunk _ _ _
    · exact absurd hb (by simp)

/-- Already the first document comes back with no terms. -/
theorem not_roundTrip_cons (slack : Nat) (d : ForwardDoc) (ds : List ForwardDoc) :
    ¬ RoundTrip slack (d :: ds) := by
  intro h
  obtain ⟨f, -, s', hs', hseen, -⟩ := h (fun _ _ => 0) (fun _ _ => 0)
  have hterms := congrArg (fun p => p.2.2) hseen
  have hnil := (ChunkT.contents_eq_nil_iff _).mpr (next_size hs')
  exact d.ne (hterms.symm.trans hnil)

/-- **Which documents make the round trip**: none, because `size` is not set, whatever room there is
behind the buffers. -/
theorem roundTrip_iff (slack : Nat) (ds : List ForwardDoc) : RoundTrip slack ds ↔ ds = [] := by
  constructor
  · intro h
    cases ds with
    | nil => rfl
    | cons d ds => exact absurd h (not_roundTrip_cons slack d ds)
  · rintro rfl wmem rmem
    exact ⟨_, rfl, next_nil rfl⟩

/-- The document of the test: five terms are written, and `chunk_size` is `0` afterwards. -/
theorem not_roundTrip_five :
    ¬ ∃ slack, RoundTrip slack
      [⟨15, [1, 2, 3, 4, 5], List.cons_ne_nil _ _, Nat.le_of_ble_eq_true rfl⟩] := by
  rintro ⟨slack, h⟩
  exact not_roundTrip_cons slack _ _ h

end IforwardT

end CSearch.ToolC
