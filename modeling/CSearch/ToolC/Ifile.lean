import CSearch.Index.Pending
import CSearch.ToolC.Chunk

set_option autoImplicit false

/-! # `ifile_t` of `tool.c`

The C ancestor of `tool::ifile`, for the same files.

Writing refines the abstract writer of groups of 256 documents *without* renaming: at a change of
the term, `ifile_write` writes the chunk and resets it, but keeps the header, so that the next
block is filed under the old term. `write_partitions_iff` says which tuples survive this.
`ifile_flush` asserts that something is pending, and `flushSafe_iff` says when this is so.

Reading keeps its position in `roff`, which counts the values handed out over the whole file but
is compared with the number of values of the current block. `yields_read` says what is delivered,
and `read_complete_iff` when this is everything.
-/

namespace CSearch.ToolC

open StreamVByte Index

/-! ## The functions of the source -/

/-- `ifile_t`. `heap` is the memory the next allocations return. -/
structure IfileT where
  file : CFile
  tupe : Tupe
  h : ChunkHead
  chunk : ChunkT
  roff : UInt32
  heap : Heap

namespace IfileT

/-- `ifile_init`, and a file. -/
def init (file : CFile) (heap : Heap) : IfileT :=
  ⟨file, ⟨0, 0⟩, ⟨0, 0, 0, 0⟩, ChunkT.zero, 0, heap⟩

/-- `ifile_real_write`. The header written is a local one; `h` keeps its values. -/
def realWrite (f : IfileT) : Option IfileT :=
  (f.chunk.compress (f.heap 0) f.heap.slack).map fun r =>
    let h : ChunkHead := ⟨f.chunk.size, f.h.term, f.h.doc, r.2⟩
    { f with
      file := (f.file.fwrite h.toBytes).fwrite (r.1.load 0 h.bcount.toNat)
      heap := f.heap.drop 1 }

/-- `ifile_real_write` and `chunk_reset`; this is also `ifile_flush`. -/
def flush (f : IfileT) : Option IfileT :=
  f.realWrite.map fun f => { f with chunk := f.chunk.reset }

/-- The first lines of `ifile_write`: an empty chunk gets a new header. -/
def startRun (f : IfileT) (t : Tupe) : IfileT :=
  if f.chunk.size = 0 then { f with h := { f.h with term := t.term, doc := t.doc } } else f

/-- The last lines of `ifile_write`: the document goes to the chunk, and a full chunk to disk. -/
def pushDoc (f : IfileT) (doc : UInt32) : Option IfileT :=
  let r := f.chunk.push doc (f.heap 0)
  let f := { f with chunk := r.2, heap := f.heap.drop 1 }
  if r.1 then f.flush else some f

/-- `ifile_write`. At a change of the term the header is not updated. -/
def write (f : IfileT) (t : Tupe) : Option IfileT :=
  let f := f.startRun t
  (if t.term ≠ f.h.term then f.flush else some f).bind fun f => f.pushDoc t.doc

/-- A sequence of calls of `ifile_write`. -/
def writeAll (f : IfileT) : List Tupe → Option IfileT
  | [] => some f
  | t :: ts => (f.write t).bind fun f => f.writeAll ts

/-- The chunk still pending at the end, if any, is written. -/
def finish (f : IfileT) : Option IfileT := if f.chunk.size = 0 then some f else f.realWrite

/-- `ifile_real_read`. An incomplete header overwrites the front of `h`. -/
def realRead (f : IfileT) : Option (Int32 × IfileT) :=
  let r := f.file.fread 16
  let h := ChunkHead.ofBytes (r.1 ++ f.h.toBytes.drop r.1.length)
  if r.2.1 = 0 then some (-1, { f with file := r.2.2, h := h })
  else
    (ChunkT.readBlock r.2.2 h.N h.bcount f.chunk (f.heap 0) (f.heap 1) f.heap.slack).map fun b =>
      (0, { f with file := b.2, h := h, chunk := b.1, heap := f.heap.drop 2 })

/-- `ifile_read`. -/
def read (f : IfileT) : Option (Int32 × IfileT) :=
  match f.chunk.get f.roff with
  | some (doc, off) => some (0, { f with tupe := { f.tupe with doc := doc }, roff := off })
  | none =>
      f.realRead.map fun r =>
        if r.1 ≠ 0 then (-1, r.2)
        else (0, { r.2 with tupe := ⟨r.2.h.term, r.2.h.doc⟩, roff := r.2.roff + 1 })

/-! ## Writing -/

/-- The object has come as far as an abstract writer, and the groups that one has handed over have
fit their buffers and are in the file as blocks. -/
structure Refines (slack : Nat) (f : IfileT) (s : Writer) : Prop where
  docs : f.chunk.contents = s.cur.docs
  inside : f.chunk.Fits
  term : f.h.term = s.cur.term
  doc : f.h.doc = s.cur.doc
  slack_eq : f.heap.slack = slack
  fits : s.Fits slack
  file : ∃ bs : List Block, f.file.written = bs.flatMap Block.bytes ∧ bs.map groupOf = s.out

/-- A computation that has come as far as an abstract writer, or has failed at a group that does not
fit. -/
def Reaches (slack : Nat) : Option IfileT → Writer → Prop :=
  Meets (Refines slack) (fun s => ¬ s.Fits slack)

theorem refines_init (heap : Heap) : Refines heap.slack (init ⟨[], []⟩ heap) Writer.new :=
  ⟨rfl, Nat.le_refl _, rfl, rfl, rfl, Writer.fits_new _, [], rfl, rfl⟩

section

variable {slack : Nat} {f : IfileT} {s : Writer}

theorem Refines.size_toNat (h : Refines slack f s) : f.chunk.size.toNat = s.cur.docs.length := by
  rw [← h.docs, ChunkT.contents_length]

theorem Refines.size_eq_zero_iff (h : Refines slack f s) :
    f.chunk.size = 0 ↔ s.cur.docs = [] := by
  rw [← h.docs, ChunkT.contents_eq_nil_iff]

/-- `ifile_real_write` on a chunk with documents passes its assertion and writes their block, if it
fits. -/
theorem Refines.realWrite (h : Refines slack f s) (hne : s.cur.docs ≠ [])
    (hle : s.cur.docs.length ≤ 256) (hfits : Tool.FitsWithin slack s.cur.docs) :
    ∃ f', f.realWrite = some f' ∧ f'.h = f.h ∧ f'.heap.slack = slack ∧ ∃ bs : List Block,
      f'.file.written = bs.flatMap Block.bytes ∧ bs.map groupOf = s.out ++ [s.cur] := by
  set v := f.chunk.contents with hv
  have hdocs : v = s.cur.docs := h.docs
  have hvne : v ≠ [] := by rw [hdocs]; exact hne
  have hvle : v.length ≤ 256 := by rw [hdocs]; exact hle
  have hsize : encodedSize v < 2 ^ 32 := encodedSize_lt_of_length (by omega)
  have hN : UInt32.ofNat v.length = f.chunk.size := by
    rw [hv, ChunkT.contents_length, UInt32.ofNat_toNat]
  set b := Block.ofChunk f.h.term f.h.doc v (f.heap 0) hvne (by omega) hsize with hb
  have hgroup : groupOf b = s.cur := by
    show (⟨f.h.term, f.h.doc, v⟩ : Group) = s.cur
    rw [h.term, h.doc, hdocs]
  have hfile := Writer.blocks_append h.file b
  rw [hgroup] at hfile
  rw [IfileT.realWrite, h.slack_eq, ChunkT.compress_of_fits hvne (by rw [← hv, hdocs]; exact hfits)]
  refine ⟨_, rfl, rfl, h.slack_eq, ?_⟩
  -- the header and the payload go to the file one after the other
  have hbytes : b.bytes = (⟨f.chunk.size, f.h.term, f.h.doc,
      (Tool.Chunk.encode v (f.heap 0)).bcount⟩ : ChunkHead).toBytes
      ++ (Tool.Chunk.encode v (f.heap 0)).cbuffer.load 0
        (Tool.Chunk.encode v (f.heap 0)).bcount.toNat := by
    rw [hb, Block.bytes, ← hN]
    rfl
  rwa [hbytes, ← List.append_assoc] at hfile

theorem Refines.realWrite_eq_none (h : Refines slack f s) (hne : s.cur.docs ≠ [])
    (hfits : ¬ Tool.FitsWithin slack s.cur.docs) : f.realWrite = none := by
  rw [← h.docs] at hne hfits
  rw [IfileT.realWrite, h.slack_eq, ChunkT.compress_of_not_fits hne hfits, Option.map_none]

/-- What does not fit is handed over by the abstract writer all the same. -/
theorem not_fits_emit (hne : s.cur.docs ≠ []) (hfits : ¬ Tool.FitsWithin slack s.cur.docs) :
    ¬ s.emit.Fits slack :=
  fun hall => hfits (((Writer.forall_emit_out s _).mp hall).2 hne)

theorem Refines.flush (h : Refines slack f s) (hne : s.cur.docs ≠ [])
    (hle : s.cur.docs.length ≤ 256) : Reaches slack f.flush s.emit := by
  by_cases hfits : Tool.FitsWithin slack s.cur.docs
  · have hemit : s.emit.Fits slack := (Writer.forall_emit_out s _).mpr ⟨h.fits, fun _ => hfits⟩
    obtain ⟨f', hf', hh, hslack, hfile⟩ := h.realWrite hne hle hfits
    rw [IfileT.flush, hf']
    rw [Writer.emit_of_ne hne] at hemit ⊢
    exact ⟨ChunkT.reset_contents _, ChunkT.fits_reset _, (congrArg ChunkHead.term hh).trans h.term,
      (congrArg ChunkHead.doc hh).trans h.doc, hslack, hemit, hfile⟩
  · rw [IfileT.flush, h.realWrite_eq_none hne hfits]
    exact not_fits_emit hne hfits

theorem Refines.startRun (h : Refines slack f s) (t : Tupe) :
    Refines slack (f.startRun t) (s.start t) := by
  by_cases hd : s.cur.docs = []
  · rw [IfileT.startRun, if_pos (h.size_eq_zero_iff.mpr hd), Writer.start_of_nil hd]
    exact ⟨h.docs.trans hd, h.inside, rfl, rfl, h.slack_eq, h.fits, h.file⟩
  · rw [IfileT.startRun, if_neg (fun h' => hd (h.size_eq_zero_iff.mp h')), Writer.start_of_ne hd]
    exact h

/-- A term other than that of the header: then there are documents under the old one. -/
theorem Refines.change {t : Tupe} (h : Refines slack f (s.start t))
    (hle : (s.start t).cur.docs.length ≤ 256) :
    Reaches slack (if t.term ≠ f.h.term then f.flush else some f) ((s.start t).change false t) := by
  by_cases ht : t.term = f.h.term
  · rw [if_neg (not_not.mpr ht), Writer.change_of_eq false (ht.trans h.term)]
    exact h
  · have ht' : t.term ≠ (s.start t).cur.term := fun h' => ht (h'.trans h.term.symm)
    have hne : (s.start t).cur.docs ≠ [] := by
      intro hd
      rw [Writer.start_docs] at hd
      rw [Writer.start_of_nil hd] at ht'
      exact ht' rfl
    rw [if_pos ht, Writer.change, if_pos ht']
    exact h.flush hne hle

theorem Refines.pushDoc (h : Refines slack f s) (hlt : s.cur.docs.length < 256) (d : UInt32) :
    Reaches slack (f.pushDoc d) ((s.push d).close 256) := by
  have hsize : f.chunk.size.toNat < 256 := by rw [h.size_toNat]; exact hlt
  have hpush : Refines slack
      { f with chunk := (f.chunk.push d (f.heap 0)).2, heap := f.heap.drop 1 } (s.push d) := by
    refine ⟨?_, ChunkT.push_fits hsize d _, h.term, h.doc, h.slack_eq, h.fits, h.file⟩
    show (f.chunk.push d (f.heap 0)).2.contents = s.cur.docs ++ [d]
    rw [ChunkT.push_contents h.inside hsize, h.docs]
  have hlen : (s.push d).cur.docs.length = s.cur.docs.length + 1 := by simp [Writer.push]
  have hfull := ChunkT.push_full h.inside hsize d (f.heap 0)
  rw [h.docs] at hfull
  rw [IfileT.pushDoc, Writer.close]
  by_cases hcap : (s.push d).cur.docs.length = 256
  · rw [if_pos hcap, if_pos (hfull.mpr hcap)]
    exact hpush.flush (fun h' => by rw [h', List.length_nil] at hlen; omega) hcap.le
  · rw [if_neg hcap, if_neg (fun h' => hcap (hfull.mp h'))]
    exact hpush

/-- **One call of `ifile_write`** is one step of the abstract writer that does not rename. -/
theorem Refines.write (h : Refines slack f s) (hb : s.Bounded 256) (t : Tupe) :
    Reaches slack (f.write t) (s.step 256 false t) := by
  have hbs := hb.start t
  have hchange := (h.startRun t).change hbs.cur_lt.le
  exact hchange.bind (fun f' h' => h'.pushDoc (hbs.change false t).cur_lt t.doc)
    (fun hbad hfits => hbad hfits.change_of_step)

theorem Refines.writeAll (h : Refines slack f s) (hb : s.Bounded 256) (ts : List Tupe) :
    Reaches slack (f.writeAll ts) (s.run 256 false ts) := by
  induction ts generalizing f s with
  | nil => exact h
  | cons t ts ih =>
      refine (h.write hb t).bind (fun f' h' => ih h' (hb.step false t))
        (fun hbad hfits => hbad ?_)
      exact Writer.Fits.of_run ts hfits

/-- The groups handed over have fit their buffers and are in the file as blocks. -/
structure Wrote (slack : Nat) (f : IfileT) (s : Writer) : Prop where
  fits : s.Fits slack
  file : ∃ bs : List Block, f.file.written = bs.flatMap Block.bytes ∧ bs.map groupOf = s.out

/-- The pending chunk is handed over at the end. -/
theorem Refines.finish (h : Refines slack f s) (hb : s.Bounded 256) :
    Meets (Wrote slack) (fun s => ¬ s.Fits slack) f.finish s.emit := by
  by_cases hd : s.cur.docs = []
  · rw [IfileT.finish, if_pos (h.size_eq_zero_iff.mpr hd), Writer.emit_of_nil hd]
    exact ⟨h.fits, h.file⟩
  · rw [IfileT.finish, if_neg (fun h' => hd (h.size_eq_zero_iff.mp h'))]
    by_cases hfits : Tool.FitsWithin slack s.cur.docs
    · obtain ⟨f', hf', -, -, hfile⟩ := h.realWrite hd hb.cur_lt.le hfits
      rw [hf']
      refine ⟨(Writer.forall_emit_out s _).mpr ⟨h.fits, fun _ => hfits⟩, ?_⟩
      rw [Writer.emit_of_ne hd]
      exact hfile
    · rw [h.realWrite_eq_none hd hfits]
      exact not_fits_emit hd hfits

end

/-- The groups that writing these tuples hands over, the one pending at the end included. -/
def groups (ts : List Tupe) : List Group := (Writer.new.run 256 false ts).emit.out

/-- What is in the file in the end: the groups of the abstract writer. -/
theorem writeAll_finish (ts : List Tupe) (heap : Heap) :
    Meets (Wrote heap.slack) (fun s => ¬ s.Fits heap.slack)
      (((init ⟨[], []⟩ heap).writeAll ts).bind finish) (Writer.new.run 256 false ts).emit := by
  have hb : Writer.Bounded 256 Writer.new := Writer.bounded_new (by decide)
  exact ((refines_init heap).writeAll hb ts).bind (fun f h => h.finish (hb.run false ts))
    (fun hbad hfits => hbad (Writer.Fits.of_emit hfits))

theorem groups_length_le {ts : List Tupe} {g : Group} (hg : g ∈ groups ts) :
    g.docs.length ≤ 256 := by
  have hb : (Writer.new.run 256 false ts).Bounded 256 :=
    (Writer.bounded_new (by decide)).run false ts
  exact (Writer.Bounded.emit (by decide) hb.cur_lt.le hb.out_ne hb.out_le).out_le g hg

/-- The groups fit their buffers if they save as many bytes as they have key bytes. -/
theorem groups_fit_iff (ts : List Tupe) :
    (Writer.new.run 256 false ts).emit.Fits 0
      ↔ ∀ g ∈ groups ts, (g.docs.length + 3) / 4 ≤ savedBytes (deltas 0 g.docs) := by
  refine forall₂_congr fun g hg => ?_
  have hlen := groups_length_le hg
  rw [Tool.fitsWithin_zero]
  exact or_iff_right (by omega)

/-- **The tuples are partitioned**: whatever the memory holds, no assertion fails, no buffer is left
and the file consists of blocks that stand for exactly the tuples written, each with its first
document in the header. -/
def Partitions (ts : List Tupe) : Prop :=
  ∀ mem : Nat → Mem, ∃ f, ((init ⟨[], []⟩ ⟨mem, 0⟩).writeAll ts).bind finish = some f
    ∧ ∃ bs : List Block, f.file.written = bs.flatMap Block.bytes
      ∧ bs.flatMap Block.tuples = ts ∧ ∀ b ∈ bs, b.docs.head? = some b.head.doc

theorem partitions_iff_termsAligned (ts : List Tupe) :
    Partitions ts ↔ Writer.TermsAligned 256 ts ∧ (Writer.new.run 256 false ts).emit.Fits 0 := by
  obtain ⟨hiff, hat⟩ := Writer.run_false_iff 256 (by decide) ts
  constructor
  · intro h
    obtain ⟨f, hf, bs, hbs, hts, -⟩ := h (fun _ _ => 0)
    have hwrote := writeAll_finish ts ⟨fun _ _ => 0, 0⟩
    rw [hf] at hwrote
    obtain ⟨hfits, bs', hbs', hout⟩ := hwrote
    -- the bytes can be read as blocks in one way only
    have hbb : bs = bs' := Block.flatMap_bytes_inj (by rw [← hbs, ← hbs'])
    refine ⟨?_, hfits⟩
    rw [← hiff, ← Writer.blocks_tuples hout, ← hbb, hts]
  · rintro ⟨ha, hfits⟩ mem
    obtain ⟨f, hf, -, bs, hbs, hout⟩ :=
      (writeAll_finish ts ⟨mem, 0⟩).exists_of_not (not_not.mpr hfits)
    refine ⟨f, hf, bs, hbs, (Writer.blocks_tuples hout).trans (hiff.mpr ha), fun b hmem => ?_⟩
    refine (hat ha).firstDocs.emit.out (groupOf b) ?_
    rw [← hout]
    exact List.mem_map_of_mem hmem

/-- **Which tuples `ifile_write` partitions**: those whose terms change only at multiples of 256
tuples, so that every tuple has the term of the first one of its 256, and whose groups fit the
buffers they are compressed into. -/
theorem write_partitions_iff (ts : List Tupe) :
    Partitions ts
      ↔ (∀ i, i < ts.length → ts[i]?.map Tupe.term = ts[256 * (i / 256)]?.map Tupe.term)
        ∧ ∀ g ∈ groups ts, (g.docs.length + 3) / 4 ≤ savedBytes (deltas 0 g.docs) := by
  rw [partitions_iff_termsAligned, groups_fit_iff]
  rfl

/-- A second term after one document: its document is filed under the first term. -/
theorem not_partitions_two : ¬ Partitions [⟨1, 5⟩, ⟨2, 7⟩] := by
  rw [partitions_iff_termsAligned]
  rintro ⟨h, -⟩
  exact absurd (h 1 (by decide)) (by decide)

/-! ## Flushing -/

/-- **Flushing is safe**: no call of `chunk_compress` made by the calls of `ifile_write` and the one
of `ifile_flush` after them fails its assertion. Behind the buffers there is room for the 64 key
bytes of a full chunk, so that nothing else can fail. -/
def FlushSafe (ts : List Tupe) : Prop :=
  ∀ heap : Heap, 64 ≤ heap.slack → (((init ⟨[], []⟩ heap).writeAll ts).bind flush).isSome

theorem flushSafe_iff_docs (ts : List Tupe) :
    FlushSafe ts ↔ (Writer.new.run 256 false ts).cur.docs ≠ [] := by
  have hb : Writer.Bounded 256 Writer.new := Writer.bounded_new (by decide)
  have hrun := hb.run false ts
  have hflush : ∀ heap : Heap, 64 ≤ heap.slack →
      ((((init ⟨[], []⟩ heap).writeAll ts).bind flush).isSome
        ↔ (Writer.new.run 256 false ts).cur.docs ≠ []) := by
    intro heap hslack
    -- the writes pass their assertions, so it is the last flush that matters
    obtain ⟨f, hf, h⟩ := ((refines_init heap).writeAll hb ts).exists_of_not
      (not_not.mpr (hrun.fits hslack))
    rw [hf, Option.bind_some]
    by_cases hd : (Writer.new.run 256 false ts).cur.docs = []
    · have hnone : f.flush = none := by
        rw [IfileT.flush, IfileT.realWrite, ChunkT.compress, if_pos (h.size_eq_zero_iff.mpr hd)]
        rfl
      rw [hnone]
      exact iff_of_false Bool.false_ne_true (not_not.mpr hd)
    · have hfits : Tool.FitsWithin heap.slack (Writer.new.run 256 false ts).cur.docs := by
        have := hrun.cur_lt
        exact Tool.fitsWithin_of_le (by omega)
      obtain ⟨f', hf', -⟩ := h.realWrite hd hrun.cur_lt.le hfits
      rw [IfileT.flush, hf']
      exact iff_of_true rfl hd
  exact ⟨fun h => (hflush (Heap.zeros 64) (Nat.le_refl _)).mp (h _ (Nat.le_refl _)),
    fun h heap hslack => (hflush heap hslack).mpr h⟩

/-- **When flushing is safe**: the tuples do not consist of pieces each of which fills the chunk with
its last tuple. Such a piece has 256 tuples or more, the last 255 of them have the term of the first
one, and no proper prefix of it is like that. -/
theorem flushSafe_iff (ts : List Tupe) :
    FlushSafe ts ↔ ¬ ∃ ps : List (List Tupe),
      (∀ p ∈ ps, Writer.FillsGroup 256 p) ∧ ps.flatten = ts := by
  rw [flushSafe_iff_docs, ne_eq, Writer.run_docs_nil_iff (by decide)]

/-- 256 tuples of one term: the last one empties the chunk, and nothing is left to flush. -/
theorem not_flushSafe_256 : ¬ FlushSafe (List.replicate 256 ⟨1, 5⟩) := by
  rw [flushSafe_iff_docs, not_not, Writer.run_docs_nil_iff (by decide)]
  refine ⟨[List.replicate 256 ⟨1, 5⟩], ?_, List.flatten_singleton⟩
  rw [List.forall_mem_singleton]
  exact Writer.fillsGroup_replicate (by decide) _

/-! ## Reading -/

end IfileT

/-- A block with its first document in the header, whose payload is not longer than the buffer
`read_block` allocates for it. -/
structure ReadableBlock extends Block where
  doc_eq : docs.head? = some head.doc
  fits : payload.length ≤ 4 * docs.length

namespace ReadableBlock

theorem ne_nil_of_head? {v : List UInt32} {doc : UInt32} (h : v.head? = some doc) : v ≠ [] := by
  rintro rfl
  simp at h

/-- The block of a chunk that is not longer in its compressed form. -/
def ofChunk (term doc : UInt32) (v : List UInt32) (hhead : v.head? = some doc)
    (hN : v.length + 3 < 2 ^ 32) (hsize : encodedSize v < 2 ^ 32)
    (hfits : encodedSize v ≤ 4 * v.length) : ReadableBlock where
  toBlock := Block.ofChunk term doc v (fun _ => 0) (ne_nil_of_head? hhead) hN hsize
  doc_eq := hhead
  fits := (Block.ofChunk_payload_length term doc v _ _ hN hsize).le.trans hfits

/-- The bytes of a file. -/
def fileBytes (bs : List ReadableBlock) : List UInt8 := bs.flatMap (fun b => b.bytes)

/-- What a file stands for. -/
def fileTuples (bs : List ReadableBlock) : List Tupe := bs.flatMap (fun b => b.tuples)

/-- The number of documents in a file. -/
def docCount (bs : List ReadableBlock) : Nat := (bs.map (fun b => b.docs.length)).sum

theorem docCount_cons (b : ReadableBlock) (bs : List ReadableBlock) :
    docCount (b :: bs) = b.docs.length + docCount bs := by
  simp [docCount]

theorem docs_length_pos (b : ReadableBlock) : 0 < b.docs.length :=
  List.length_pos_iff.mpr b.docs_ne

theorem docs_length_lt (b : ReadableBlock) : b.docs.length < 2 ^ 32 := by
  rw [← b.N_eq]
  exact b.head.N.toNat_lt

theorem N_eq_one_iff (b : ReadableBlock) : b.head.N = 1 ↔ b.docs.length = 1 := by
  rw [← UInt32.toNat_inj, b.N_eq]
  rfl

/-- The first document comes from the header, the others from the chunk. -/
theorem tuples_eq (b : ReadableBlock) :
    b.tuples = ⟨b.head.term, b.head.doc⟩ :: (b.docs.drop 1).map (Tupe.mk b.head.term) := by
  obtain ⟨d, ds, hds⟩ := List.exists_cons_of_ne_nil b.docs_ne
  have hd := b.doc_eq
  rw [hds, List.head?_cons, Option.some.injEq] at hd
  rw [Block.tuples, hds, ← hd]
  rfl

theorem fileTuples_length (bs : List ReadableBlock) : (fileTuples bs).length = docCount bs := by
  simp [fileTuples, docCount, List.length_flatMap]

/-- What `ifile_read` delivers of the blocks when `roff` has come to `r`: the document in the
header, and those from the next value of `roff` on, which is a `uint32_t`. -/
def delivered : Nat → List ReadableBlock → List Tupe
  | _, [] => []
  | r, b :: bs =>
      let r' := (r + 1) % 2 ^ 32
      ⟨b.head.term, b.head.doc⟩ :: ((b.docs.drop r').map (Tupe.mk b.head.term)
        ++ delivered (max r' b.docs.length) bs)

/-- `roff` does not come around to `0`. -/
def Unwrapped : Nat → List ReadableBlock → Prop
  | _, [] => True
  | r, b :: bs => r + 1 < 2 ^ 32 ∧ Unwrapped (max (r + 1) b.docs.length) bs

theorem unwrapped_of_docCount {r : Nat} {bs : List ReadableBlock} (h : r + docCount bs < 2 ^ 32) :
    Unwrapped r bs := by
  induction bs generalizing r with
  | nil => trivial
  | cons b bs ih =>
      have hpos := b.docs_length_pos
      rw [docCount_cons] at h
      exact ⟨by omega, ih (by omega)⟩

theorem delivered_cons {r : Nat} (hr : r + 1 < 2 ^ 32) (b : ReadableBlock)
    (bs : List ReadableBlock) :
    delivered r (b :: bs) = ⟨b.head.term, b.head.doc⟩ ::
      ((b.docs.drop (r + 1)).map (Tupe.mk b.head.term)
        ++ delivered (max (r + 1) b.docs.length) bs) := by
  rw [delivered, Nat.mod_eq_of_lt hr]

/-- Where it does come around, the document of the header is delivered twice. -/
theorem unwrapped_of_nodup {r : Nat} {bs : List ReadableBlock} (hr : r < 2 ^ 32)
    (h : (delivered r bs).Nodup) : Unwrapped r bs := by
  induction bs generalizing r with
  | nil => trivial
  | cons b bs ih =>
      have hr' : r + 1 < 2 ^ 32 := by
        by_contra hwrap
        have hzero : (r + 1) % 2 ^ 32 = 0 := by
          rw [show r + 1 = 2 ^ 32 by omega, Nat.mod_self]
        have htuples : b.docs.map (Tupe.mk b.head.term) = _ := b.tuples_eq
        rw [delivered, hzero, List.drop_zero, htuples] at h
        exact (List.nodup_cons.mp h).1 List.mem_cons_self
      rw [delivered_cons hr'] at h
      have hlen := b.docs_length_lt
      exact ⟨hr', ih (by omega) (List.Nodup.of_append_right h.of_cons)⟩

/-- Behind the first block, nothing but blocks of one document is delivered in full. -/
theorem delivered_length_le {r : Nat} (h1 : 1 ≤ r) {bs : List ReadableBlock}
    (hu : Unwrapped r bs) :
    (delivered r bs).length ≤ docCount bs
      ∧ ((delivered r bs).length = docCount bs → ∀ b ∈ bs, b.docs.length = 1) := by
  induction bs generalizing r with
  | nil => exact ⟨Nat.le_refl _, fun _ b hb => absurd hb List.not_mem_nil⟩
  | cons b bs ih =>
      have hpos := b.docs_length_pos
      have hlen : (delivered r (b :: bs)).length
          = 1 + (b.docs.length - (r + 1))
            + (delivered (max (r + 1) b.docs.length) bs).length := by
        rw [delivered_cons hu.1, List.length_cons, List.length_append, List.length_map,
          List.length_drop]
        omega
      obtain ⟨hle, heq⟩ := ih (r := max (r + 1) b.docs.length) (by omega) hu.2
      rw [hlen, docCount_cons]
      -- the header gives one document, the chunk at most `b.docs.length - 2`
      exact ⟨by omega, fun h => List.forall_mem_cons.mpr ⟨by omega, heq (by omega)⟩⟩

theorem delivered_of_singles {r : Nat} {bs : List ReadableBlock} (hu : Unwrapped r bs)
    (h : ∀ b ∈ bs, b.docs.length = 1) : delivered r bs = fileTuples bs := by
  induction bs generalizing r with
  | nil => rfl
  | cons b bs ih =>
      obtain ⟨hb, hbs⟩ := List.forall_mem_cons.mp h
      rw [delivered_cons hu.1, ih hu.2 hbs, List.drop_eq_nil_of_le (by omega), fileTuples,
        fileTuples, List.flatMap_cons, tuples_eq, List.drop_eq_nil_of_le (by omega)]
      rfl

/-- In blocks of one document `roff` counts the documents. -/
theorem docCount_lt_of_singles {r : Nat} {bs : List ReadableBlock} (hr : r < 2 ^ 32)
    (hu : Unwrapped r bs) (h : ∀ b ∈ bs, b.docs.length = 1) : r + docCount bs < 2 ^ 32 := by
  induction bs generalizing r with
  | nil => exact hr
  | cons b bs ih =>
      obtain ⟨hb, hbs⟩ := List.forall_mem_cons.mp h
      obtain ⟨hr', hrest⟩ := hu
      rw [hb, Nat.max_eq_left (by omega)] at hrest
      have hlt := ih hr' hrest hbs
      rw [docCount_cons, hb]
      omega

/-- The first block is delivered in full; the others are if they have one document each. -/
theorem delivered_zero_iff {bs : List ReadableBlock} (hu : Unwrapped 0 bs) :
    delivered 0 bs = fileTuples bs ↔ ∀ b ∈ bs.tail, b.docs.length = 1 := by
  cases bs with
  | nil => simp [delivered, fileTuples]
  | cons b bs =>
      have hfirst : delivered 0 (b :: bs)
          = b.tuples ++ delivered (max 1 b.docs.length) bs := by
        rw [delivered_cons hu.1, tuples_eq, List.cons_append]
      rw [hfirst, fileTuples, List.flatMap_cons, List.append_cancel_left_eq, List.tail_cons]
      constructor
      · intro heq
        refine (delivered_length_le (le_max_left 1 b.docs.length) hu.2).2 ?_
        rw [heq]
        exact fileTuples_length bs
      · exact delivered_of_singles hu.2

/-- Only tuples of the file are delivered. -/
theorem mem_of_mem_delivered {r : Nat} {bs : List ReadableBlock} {x : Tupe}
    (hx : x ∈ delivered r bs) : x ∈ fileTuples bs := by
  induction bs generalizing r with
  | nil => exact hx
  | cons b bs ih =>
      rw [fileTuples, List.flatMap_cons, List.mem_append]
      rw [delivered, List.mem_cons, List.mem_append] at hx
      rcases hx with rfl | hx | hx
      · exact Or.inl (by rw [b.tuples_eq]; exact List.mem_cons_self)
      · obtain ⟨d, hd, rfl⟩ := List.mem_map.mp hx
        exact Or.inl (List.mem_map_of_mem (List.mem_of_mem_drop hd))
      · exact Or.inr (ih hx)

end ReadableBlock

namespace IfileT

open ReadableBlock

/-- `ifile_read` returns `0` or `-1`. -/
theorem read_fst {f : IfileT} {r : Int32 × IfileT} (h : f.read = some r) : r.1 = 0 ∨ r.1 = -1 := by
  unfold read at h
  split at h
  · rw [← Option.some.inj h]
    exact Or.inl rfl
  · obtain ⟨q, -, rfl⟩ := Option.map_eq_some_iff.mp h
    split
    · exact Or.inr rfl
    · exact Or.inl rfl

/-- `ifile_read` as a reader: it succeeds if it returns `0`. -/
def next (f : IfileT) : Option (Bool × IfileT) := f.read.map fun r => (r.1 == 0, r.2)

/-- The reader has `r` in `roff` and has handed out the current block; these bytes follow. -/
structure AtEnd (f : IfileT) (r : Nat) (bytes : List UInt8) : Prop where
  roff : f.roff.toNat = r
  size : f.chunk.size = 0
  drained : f.chunk.cap.toNat ≤ r
  rest : f.file.rest = bytes

/-- The reader has `r` in `roff` and the block `b` in its chunk. -/
structure InBlock (f : IfileT) (b : ReadableBlock) (r : Nat) (bytes : List UInt8) : Prop where
  roff : f.roff.toNat = r
  size : f.chunk.size = 0
  cap : f.chunk.cap = b.head.N
  buffer : ∀ i d, b.docs[i]? = some d → f.chunk.buffer i = d
  term : f.tupe.term = b.head.term
  rest : f.file.rest = bytes

theorem InBlock.atEnd {f : IfileT} {b : ReadableBlock} {r : Nat} {bytes : List UInt8}
    (h : InBlock f b r bytes) (hr : b.docs.length ≤ r) : AtEnd f r bytes :=
  ⟨h.roff, h.size, by rw [h.cap, b.N_eq]; exact hr, h.rest⟩

theorem succ_roff_toNat {f : IfileT} {r : Nat} (h : f.roff.toNat = r) :
    (f.roff + 1).toNat = (r + 1) % 2 ^ 32 := by
  rw [UInt32.toNat_add, h]
  rfl

/-- Inside a block the next document comes from the chunk. -/
theorem InBlock.next {f : IfileT} {b : ReadableBlock} {r : Nat} {bytes : List UInt8}
    (h : InBlock f b r bytes) {d : UInt32} (hd : b.docs[r]? = some d) :
    ∃ f', f.next = some (true, f') ∧ f'.tupe = ⟨b.head.term, d⟩ ∧ InBlock f' b (r + 1) bytes := by
  obtain ⟨hr, -⟩ := List.getElem?_eq_some_iff.mp hd
  have hlt := b.docs_length_lt
  have hget : f.chunk.get f.roff = some (d, f.roff + 1) := by
    rw [ChunkT.get, if_neg, h.roff, h.buffer r d hd]
    rw [UInt32.le_iff_toNat_le, h.cap, b.N_eq, h.roff]
    omega
  have hread : f.read
      = some (0, { f with tupe := { f.tupe with doc := d }, roff := f.roff + 1 }) := by
    unfold read
    rw [hget]
  rw [IfileT.next, hread]
  refine ⟨_, rfl, by rw [← h.term], ?_, h.size, h.cap, h.buffer, h.term, h.rest⟩
  rw [succ_roff_toNat h.roff, Nat.mod_eq_of_lt (by omega)]

theorem AtEnd.get {f : IfileT} {r : Nat} {bytes : List UInt8} (h : AtEnd f r bytes) :
    f.chunk.get f.roff = none := by
  rw [ChunkT.get, if_pos]
  rw [UInt32.le_iff_toNat_le, h.roff]
  exact h.drained

/-- `ifile_real_read` reads a block. -/
theorem AtEnd.realRead {f : IfileT} {r : Nat} {bytes : List UInt8} {b : ReadableBlock}
    (h : AtEnd f r (b.bytes ++ bytes)) :
    ∃ c, f.realRead = some (0, { f with
        file := { f.file with rest := bytes }, h := b.head, chunk := c, heap := f.heap.drop 2 })
      ∧ c.size = 0 ∧ c.cap = b.head.N ∧ ∀ i d, b.docs[i]? = some d → c.buffer i = d := by
  have hrest : f.file.rest = b.head.toBytes ++ (b.payload ++ bytes) := by
    rw [h.rest, Block.bytes, List.append_assoc]
  have hhead := CFile.fread_append hrest
  have hpay : CFile.fread { f.file with rest := b.payload ++ bytes } b.payload.length
      = (b.payload, 1, { f.file with rest := bytes }) := CFile.fread_append rfl
  rw [ChunkHead.toBytes_length] at hhead
  have hh : ChunkHead.ofBytes (b.head.toBytes ++ f.h.toBytes.drop b.head.toBytes.length)
      = b.head := by
    rw [List.drop_eq_nil_of_le (by simp), List.append_nil, ChunkHead.ofBytes_toBytes]
  have hspec := ChunkT.decompress_spec h.size b.N_eq b.docs_ne
    (b.decodes _ (Mem.holds_store (f.heap 0) 0 b.payload)) (f.heap 1)
  have hroom : b.payload.length ≤ b.head.N.toNat * 4 + f.heap.slack := by
    have := b.fits
    rw [b.N_eq]
    omega
  refine ⟨_, ?_, hspec⟩
  unfold IfileT.realRead
  simp only [hhead, hh, ChunkT.readBlock, b.bcount_eq, hpay, if_pos hroom]
  rfl

/-- At the end of a block the next document comes from the next header. -/
theorem AtEnd.next {f : IfileT} {r : Nat} {bytes : List UInt8} {b : ReadableBlock}
    (h : AtEnd f r (b.bytes ++ bytes)) :
    ∃ f', f.next = some (true, f') ∧ f'.tupe = ⟨b.head.term, b.head.doc⟩
      ∧ InBlock f' b ((r + 1) % 2 ^ 32) bytes := by
  obtain ⟨c, hread, hsize, hcap, hbuf⟩ := h.realRead
  have hnext : f.read = some (0, { f with
      file := { f.file with rest := bytes }, h := b.head, chunk := c, heap := f.heap.drop 2,
      tupe := ⟨b.head.term, b.head.doc⟩, roff := f.roff + 1 }) := by
    unfold read
    rw [h.get]
    simp only [hread]
    rfl
  rw [IfileT.next, hnext]
  exact ⟨_, rfl, rfl, succ_roff_toNat h.roff, hsize, hcap, hbuf, rfl, rfl⟩

/-- At the end of the file `ifile_read` fails. -/
theorem AtEnd.next_nil {f : IfileT} {r : Nat} (h : AtEnd f r []) :
    ∃ f', f.next = some (false, f') := by
  unfold IfileT.next read
  rw [h.get]
  simp only [IfileT.realRead, CFile.fread_nil h.rest (show 0 < 16 by decide)]
  exact ⟨_, rfl⟩

/-- The rest of a block is delivered, and then what follows it. -/
theorem InBlock.yields {f : IfileT} {b : ReadableBlock} {r : Nat} {bytes : List UInt8}
    {l : List Tupe} (h : InBlock f b r bytes)
    (hl : ∀ f', AtEnd f' (max r b.docs.length) bytes → Yields IfileT.next tupe f' l) :
    Yields IfileT.next tupe f ((b.docs.drop r).map (Tupe.mk b.head.term) ++ l) := by
  -- on the number of documents left
  generalize hk : b.docs.length - r = k
  induction k generalizing f r with
  | zero =>
      rw [List.drop_eq_nil_of_le (by omega)]
      refine hl f ?_
      rw [max_eq_left (by omega)]
      exact h.atEnd (by omega)
  | succ k ih =>
      have hr : r < b.docs.length := by omega
      obtain ⟨f₁, hf₁, htupe, hin⟩ := h.next (List.getElem?_eq_getElem hr)
      rw [List.drop_eq_getElem_cons hr, List.map_cons, List.cons_append]
      refine ⟨f₁, hf₁, htupe, ih hin (fun f' hf' => hl f' ?_) (by omega)⟩
      rwa [show max r b.docs.length = max (r + 1) b.docs.length by omega]

/-- **What `ifile_read` delivers** of any file. -/
theorem yields_read {f : IfileT} {r : Nat} {bs : List ReadableBlock}
    (h : AtEnd f r (fileBytes bs)) : Yields next tupe f (delivered r bs) := by
  induction bs generalizing f r with
  | nil => exact h.next_nil
  | cons b bs ih =>
      rw [fileBytes, List.flatMap_cons] at h
      obtain ⟨f₁, hf₁, htupe, hin⟩ := h.next
      exact ⟨f₁, hf₁, htupe, hin.yields (fun f' hf' => ih hf')⟩

theorem atEnd_init (bytes : List UInt8) (heap : Heap) :
    AtEnd (init ⟨bytes, []⟩ heap) 0 bytes :=
  ⟨rfl, rfl, Nat.le_refl _, rfl⟩

/-- **A file is read completely**: `ifile_read` returns `0` once for every document of every block,
with its tuple in `tupe`, and then `-1` (see `read_fst`). -/
def ReadsAll (bs : List ReadableBlock) : Prop :=
  ∀ heap : Heap, Yields next tupe (init ⟨fileBytes bs, []⟩ heap) (fileTuples bs)

theorem readsAll_iff_delivered (bs : List ReadableBlock) :
    ReadsAll bs ↔ delivered 0 bs = fileTuples bs := by
  have hy : ∀ heap, Yields next tupe (init ⟨fileBytes bs, []⟩ heap) (delivered 0 bs) :=
    fun heap => yields_read (atEnd_init _ heap)
  constructor
  · intro hall
    exact (hy (Heap.zeros 0)).unique (hall (Heap.zeros 0))
  · intro heq heap
    rw [← heq]
    exact hy heap

/-- **Which files `ifile_read` reads completely**: those in which every block after the first has
one document only. In a file of `2^32` documents or more `roff` wraps around and a block can be
delivered with a document too many, so that there the tuples delivered have to be compared with
those of the file. -/
theorem read_complete_iff (bs : List ReadableBlock) :
    ReadsAll bs ↔ (docCount bs < 2 ^ 32 ∧ ∀ b ∈ bs.tail, b.head.N = 1)
      ∨ (2 ^ 32 ≤ docCount bs ∧ delivered 0 bs = fileTuples bs) := by
  rw [readsAll_iff_delivered]
  simp only [N_eq_one_iff]
  rcases Nat.lt_or_ge (docCount bs) (2 ^ 32) with h | h
  · rw [delivered_zero_iff (unwrapped_of_docCount (by omega))]
    exact ⟨fun ha => Or.inl ⟨h, ha⟩, fun ha => (ha.resolve_right (fun hr => by omega)).2⟩
  · exact ⟨fun ha => Or.inr ⟨h, ha⟩, fun ha => (ha.resolve_left (fun hl => by omega)).2⟩

/-- Without a tuple that occurs twice, no file of `2^32` documents or more is read completely. -/
theorem readsAll_iff_of_nodup {bs : List ReadableBlock} (hnodup : (fileTuples bs).Nodup) :
    ReadsAll bs ↔ docCount bs < 2 ^ 32 ∧ ∀ b ∈ bs.tail, b.head.N = 1 := by
  rw [readsAll_iff_delivered]
  simp only [N_eq_one_iff]
  constructor
  · intro heq
    have hu : Unwrapped 0 bs := unwrapped_of_nodup (by decide) (by rw [heq]; exact hnodup)
    have hsingles := (delivered_zero_iff hu).mp heq
    refine ⟨?_, hsingles⟩
    cases bs with
    | nil => decide
    | cons b bs =>
        have hlt := docCount_lt_of_singles (max_lt (by decide) b.docs_length_lt) hu.2 hsingles
        rw [docCount_cons]
        omega
  · rintro ⟨hlt, hsingles⟩
    exact (delivered_zero_iff (unwrapped_of_docCount (by omega))).mpr hsingles

/-- With one tuple only, a file of any size is read completely if the positions give as many tuples as
there are documents. -/
theorem readsAll_of_eq {bs : List ReadableBlock} {t : Tupe} (hall : ∀ x ∈ fileTuples bs, x = t)
    (hlen : (delivered 0 bs).length = docCount bs) : ReadsAll bs := by
  rw [readsAll_iff_delivered, List.eq_replicate_of_mem hall,
    List.eq_replicate_of_mem (fun x hx => hall x (mem_of_mem_delivered hx)), hlen,
    fileTuples_length]

/-- One document in the first block, two in the second: the last one is not read. -/
theorem not_readsAll_two :
    ¬ ReadsAll [ofChunk 1 5 [5] rfl (by decide) (by decide) (by decide),
      ofChunk 2 7 [7, 9] rfl (by decide) (by decide) (by decide)] := by
  rw [readsAll_iff_delivered, delivered_zero_iff (unwrapped_of_docCount (by decide))]
  intro h
  have hlen := h _ List.mem_cons_self
  exact absurd hlen (by decide)

end IfileT

end CSearch.ToolC
