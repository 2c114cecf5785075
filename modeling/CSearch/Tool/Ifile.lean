import CSearch.Index.Writer
import CSearch.Tool.Record

set_option autoImplicit false

/-! # `tool::ifile`

The C++ class that reads and writes index files (`ifile.h`, `ifile.cc`).

Reading is by `real_read`, which is `readRecord` with the header of an index block; so
`readsBack_iff` tells which index files come back (`realRead_readsBack_iff`), given the number of
bytes behind an object that can be overwritten without harm.

Writing is by `write` and `flush`. The block under construction lives in `h` and `c`; it goes to
the file at a change of the term, when it is full, and at a flush. `Refines` relates the object to
an abstract writer of groups of ten that renames at a change of the term; every call keeps the
relation or leaves the buffer of `compress` because of a group that does not fit in it
(`Refines.write`). `write_partitioned_iff` is what follows for the file: exactly if all groups fit,
it is a partition of the tuples into blocks of at most ten. `write_namesFirstDocs_iff` tells when
the headers of these blocks have the right document.
-/

namespace CSearch.Tool

open StreamVByte Index

/-! ## The class -/

/-- `tool::ifile`. The iterator `it` is an index into `c`; `heap` is the memory the next
allocations return. -/
structure Ifile where
  it : Nat
  c : Chunk
  h : ChunkHead
  t : Tupe
  fs : FStream
  heap : Heap

namespace Ifile

/-- The member `capacity`, which nothing changes. -/
def capacity : Nat := 10

/-- The constructor. It does not initialise the member `t`. -/
def new (fs : FStream) (t : Tupe) (heap : Heap) : Ifile :=
  ⟨0, [], ⟨0, 0, 0, 0⟩, t, fs, heap⟩

/-- `ifile::real_write`. -/
def realWrite (f : Ifile) : Option Ifile :=
  if f.c.length = 0 then some f
  else
    (f.c.compress (f.heap 0) f.heap.slack).map fun r =>
      let h := { f.h with N := UInt32.ofNat f.c.length, bcount := r.bcount }
      { f with
        h := h
        fs := (f.fs.write h.toBytes).write (r.cbuffer.load 0 h.bcount.toNat)
        heap := f.heap.drop 1 }

/-- `c.clear()`. -/
def clear (f : Ifile) : Ifile := { f with c := [] }

/-- `ifile::flush`. -/
def flush (f : Ifile) : Option Ifile := f.realWrite.map clear

/-- `ifile::write`. -/
def write (f : Ifile) (t : Tupe) : Option Ifile :=
  let f := if f.c.length = 0 then { f with h := { f.h with term := t.term, doc := t.doc } } else f
  let f' :=
    if t.term ≠ f.h.term then
      (f.realWrite.map clear).map fun f => { f with h := { f.h with term := t.term } }
    else some f
  f'.bind fun f =>
    let f := { f with c := f.c ++ [t.doc] }
    if f.c.length = capacity then f.realWrite.map clear else some f

/-- Writing tuples in order. -/
def writeAll : Ifile → List Tupe → Option Ifile
  | f, [] => some f
  | f, t :: ts => (f.write t).bind fun f => f.writeAll ts

/-- The layout of `chunk_head`. -/
def headCodec : HeadCodec ChunkHead where
  size := 16
  toBytes := ChunkHead.toBytes
  ofBytes := ChunkHead.ofBytes
  count := ChunkHead.N
  bcount := ChunkHead.bcount
  length_toBytes := ChunkHead.toBytes_length
  ofBytes_toBytes := ChunkHead.ofBytes_toBytes

/-- `ifile::real_read`. -/
def realRead (f : Ifile) : Option (Bool × Ifile) :=
  if f.fs.eof then some (false, f)
  else
    let r := readHead headCodec f.fs f.h
    (Chunk.readBlock r.2 r.1.N r.1.bcount (f.heap 0) f.heap.slack).map fun b =>
      (true, { f with h := r.1, c := b.1, fs := b.2, it := 0, heap := f.heap.drop 1 })

/-- `*it`. Behind the vector lies memory of unknown contents. -/
def deref (f : Ifile) : UInt32 := f.c.getD f.it (UInt32.ofNat ((f.heap 0).le (4 * f.it) 4))

/-- The second half of `ifile::read`: the next block, and its first document from the header. -/
def readNext (f : Ifile) (tt : Tupe) : Option (Bool × Tupe × Ifile) :=
  f.realRead.map fun r =>
    if r.1 then
      let t : Tupe := ⟨r.2.h.term, r.2.h.doc⟩
      (true, t, { r.2 with t := t, it := r.2.it + 1 })
    else (false, tt, r.2)

/-- `ifile::read`: the result, `tt` afterwards, and the object. A document `0` in the middle of a
block counts as the end of the block. -/
def read (f : Ifile) (tt : Tupe) : Option (Bool × Tupe × Ifile) :=
  if f.it ≠ f.c.length then
    let d := f.deref
    let f := { f with it := f.it + 1, t := { f.t with doc := d } }
    let tt := { tt with doc := d }
    if d ≠ 0 then some (true, tt, f) else f.readNext tt
  else f.readNext tt

/-- `ifile::read` for a caller that does not look at `tt`. -/
def next (f : Ifile) : Option (Bool × Ifile) := (f.read f.t).map fun r => (r.1, r.2.2)

/-! ## Reading -/

/-- The argument `tt` is only written to. -/
theorem read_eq_next (f : Ifile) (tt : Tupe) :
    (f.read tt).map (fun r => (r.1, r.2.2)) = f.next := by
  have hnext : ∀ (f : Ifile) (tt tt' : Tupe),
      (f.readNext tt).map (fun r => (r.1, r.2.2)) = (f.readNext tt').map (fun r => (r.1, r.2.2)) := by
    intro f tt tt'
    unfold readNext
    rw [Option.map_map, Option.map_map]
    refine congrArg (fun k => f.realRead.map k) (funext fun r => ?_)
    dsimp only [Function.comp]
    split <;> rfl
  unfold next read
  dsimp only
  split
  · split
    · rfl
    · exact hnext _ _ _
  · exact hnext _ _ _

/-- What `real_read` works on. -/
def toRec (f : Ifile) : RecState ChunkHead := ⟨f.fs, f.h, f.c, f.heap⟩

theorem realRead_toRec (f : Ifile) :
    f.realRead.map (Prod.map id toRec) = readRecord headCodec f.toRec := by
  unfold realRead readRecord toRec
  dsimp only
  split
  · rfl
  · rw [Option.map_map]
    rfl

theorem realRead_of_read {f : Ifile} {ok : Bool} {r : RecState ChunkHead}
    (h : readRecord headCodec f.toRec = some (ok, r)) :
    ∃ f', f.realRead = some (ok, f') ∧ f'.toRec = r := by
  rw [← realRead_toRec, Option.map_eq_some_iff] at h
  obtain ⟨⟨ok', f'⟩, hf, heq⟩ := h
  rw [Prod.map_apply, Prod.mk.injEq] at heq
  obtain ⟨rfl, rfl⟩ := heq
  exact ⟨f', hf, rfl⟩

/-- The file of these blocks is read back by `real_read`: it succeeds once for every block, with
the header of the block in `h` and its values in `c`, and then fails. -/
def ReadsBack (slack : Nat) (bs : List (Record headCodec)) : Prop :=
  ∀ (t : Tupe) (mem : Nat → Mem),
    Yields realRead (fun f => (f.h, f.c)) (new (FStream.openIn (fileBytes bs)) t ⟨mem, slack⟩)
      (bs.map (fun b => (b.head, b.chunk)))

/-- Reading an index file is reading its records. -/
theorem readsBack_iff_aligned (slack : Nat) (bs : List (Record headCodec)) :
    ReadsBack slack bs ↔ Aligned slack (bs.map Record.chunk) := by
  have hmap : ∀ (t : Tupe) (mem : Nat → Mem),
      Yields realRead (fun f => (f.h, f.c)) (new (FStream.openIn (fileBytes bs)) t ⟨mem, slack⟩)
          (bs.map (fun b => (b.head, b.chunk)))
        ↔ Yields (readRecord headCodec) (RecState.seen Prod.mk)
          ⟨FStream.openIn (fileBytes bs), ⟨0, 0, 0, 0⟩, [], ⟨mem, slack⟩⟩
          (bs.map (Record.seen Prod.mk)) :=
    fun t mem => yields_map (RecState.seen Prod.mk) toRec realRead_toRec _ _
  rw [← readsBack_iff Prod.mk (fun _ _ _ _ h => (Prod.ext_iff.mp h).2) bs ⟨0, 0, 0, 0⟩ [] slack]
  constructor
  · intro h mem
    exact (hmap ⟨0, 0⟩ mem).mp (h ⟨0, 0⟩ mem)
  · intro h t mem
    exact (hmap t mem).mpr (h mem)

/-- **Which index files `real_read` reads back**: those of at least one block in which every payload
has room in the object of one byte that `read_block` allocates and the bytes that can be used behind
it, every block but the last has a payload of exactly four bytes per value, and the last one a
shorter payload whose keys fit. Without bytes behind the object, none. -/
theorem realRead_readsBack_iff (slack : Nat) (bs : List (Record headCodec)) :
    (ReadsBack slack bs ↔ bs ≠ []
      ∧ (∀ v ∈ bs.map Record.chunk, encodedSize v < 2 ^ 32 ∧ encodedSize v ≤ 1 + slack)
      ∧ (∀ v ∈ (bs.map Record.chunk).dropLast, encodedSize v = 4 * v.length)
      ∧ (∀ v ∈ (bs.map Record.chunk).getLast?, encodedSize v < 4 * v.length ∧ KeysFit v))
    ∧ ¬ ReadsBack 0 bs := by
  constructor
  · rw [readsBack_iff_aligned, aligned_iff, ne_eq, List.map_eq_nil_iff]
  · rw [readsBack_iff_aligned]
    exact not_aligned_zero bs

/-- The block that `real_write` makes of a chunk. -/
def recordOf (term doc : UInt32) (v : Chunk) (hpos : 0 < v.length) (hlt : v.length < 2 ^ 32) :
    Record headCodec where
  head := ⟨UInt32.ofNat v.length, term, doc, (v.encode (fun _ => 0)).bcount⟩
  chunk := v
  pos := hpos
  lt := hlt
  count_eq := rfl
  bcount_eq := rfl

/-- Two blocks of one document each have payloads of two bytes, where `read_block` takes four:
the second header is read from the wrong place, whatever room there is. -/
theorem not_readsBack_two :
    ¬ ∃ slack, ReadsBack slack [recordOf 1 5 [5] (by decide) (by decide),
      recordOf 2 7 [7] (by decide) (by decide)] := by
  rintro ⟨slack, h⟩
  obtain ⟨-, -, h4, -⟩ := (readsBack_iff_aligned slack _).mp h
  exact absurd h4 (by decide)

/-- At the end of a block, `read` goes on to the next one. -/
theorem next_of_end {f : Ifile} (h : f.it = f.c.length) :
    f.next = f.realRead.map fun r =>
      if r.1 then (true, { r.2 with t := ⟨r.2.h.term, r.2.h.doc⟩, it := r.2.it + 1 })
      else (false, r.2) := by
  unfold next read
  rw [if_neg (not_not.mpr h), readNext, Option.map_map]
  refine congrArg (fun k => f.realRead.map k) (funext fun r => ?_)
  dsimp only [Function.comp]
  split <;> rfl

/-- `real_read` sets the iterator to the start. -/
theorem realRead_it {f f' : Ifile} (h : f.realRead = some (true, f')) : f'.it = 0 := by
  unfold realRead at h
  split at h
  · simp at h
  · obtain ⟨b, -, hb⟩ := Option.map_eq_some_iff.mp h
    rw [← (Prod.mk.inj hb).2]

/-- It fails at the end of the file only, and changes nothing then. -/
theorem realRead_false {f f' : Ifile} (h : f.realRead = some (false, f')) : f' = f := by
  unfold realRead at h
  split at h
  · exact (Prod.mk.inj (Option.some.inj h)).2.symm
  · obtain ⟨b, -, hb⟩ := Option.map_eq_some_iff.mp h
    exact absurd (Prod.mk.inj hb).1 Bool.false_ne_true.symm

/-- A file of blocks of one document is read tuple by tuple. -/
theorem yields_next_of_singles (f : Ifile) (bs : List (ChunkHead × Chunk))
    (hy : Yields (readRecord headCodec) (RecState.seen Prod.mk) f.toRec bs)
    (h1 : ∀ b ∈ bs, b.2.length = 1) (hit : f.it = f.c.length) :
    Yields next Ifile.t f (bs.map (fun b => ⟨b.1.term, b.1.doc⟩)) := by
  induction bs generalizing f with
  | nil =>
      obtain ⟨r, hr⟩ := hy
      obtain ⟨f', hf', -⟩ := realRead_of_read hr
      refine ⟨f', ?_⟩
      rw [next_of_end hit, hf']
      rfl
  | cons b bs ih =>
      obtain ⟨r, hr, hseen, hrest⟩ := hy
      obtain ⟨f', hf', rfl⟩ := realRead_of_read hr
      have hh : f'.h = b.1 := congrArg Prod.fst hseen
      have hc : f'.c = b.2 := congrArg Prod.snd hseen
      have hit' := realRead_it hf'
      refine ⟨_, by rw [next_of_end hit, hf', Option.map_some, if_pos rfl], ?_,
        ih _ ?_ (fun b' hb' => h1 b' (List.mem_cons_of_mem _ hb')) ?_⟩
      · show (⟨f'.h.term, f'.h.doc⟩ : Tupe) = ⟨b.1.term, b.1.doc⟩
        rw [hh]
      · exact hrest
      · show f'.it + 1 = f'.c.length
        rw [hit', hc, h1 b List.mem_cons_self]

/-- Which fresh files deliver their tuples: those that are read back, if every block has one
document. -/
theorem yields_next_new (bs : List (Record headCodec)) (t : Tupe) (heap : Heap)
    (ha : Aligned heap.slack (bs.map Record.chunk)) (h1 : ∀ b ∈ bs, b.chunk.length = 1) :
    Yields next Ifile.t (new (FStream.openIn (fileBytes bs)) t heap)
      (bs.map (fun b => ⟨b.head.term, b.head.doc⟩)) := by
  have hview : ∀ (h h' : ChunkHead) (c c' : Chunk), (h, c) = (h', c') → c = c' :=
    fun _ _ _ _ h => (Prod.ext_iff.mp h).2
  have hy := (readsBack_iff Prod.mk hview bs ⟨0, 0, 0, 0⟩ [] heap.slack).mpr ha heap.mem
  have := yields_next_of_singles (new (FStream.openIn (fileBytes bs)) t heap) _ hy ?_ rfl
  · rw [List.map_map] at this
    exact this
  · intro b hb
    obtain ⟨r, hr, rfl⟩ := List.mem_map.mp hb
    exact h1 r hr

/-! ## Writing -/

/-- The object has come as far as an abstract writer, and the groups that one has handed over have
fit their buffers and are in the file as blocks. -/
structure Refines (slack : Nat) (f : Ifile) (s : Writer) : Prop where
  docs : f.c = s.cur.docs
  term : f.h.term = s.cur.term
  doc : f.h.doc = s.cur.doc
  slack_eq : f.heap.slack = slack
  fits : s.Fits slack
  file : ∃ bs : List Block, f.fs.written = bs.flatMap Block.bytes ∧ bs.map groupOf = s.out

/-- A computation that has come as far as an abstract writer, or has failed at a group that does not
fit. -/
def Reaches (slack : Nat) : Option Ifile → Writer → Prop :=
  Meets (Refines slack) (fun s => ¬ s.Fits slack)

theorem refines_new (t : Tupe) (heap : Heap) :
    Refines heap.slack (new FStream.create t heap) Writer.new :=
  ⟨rfl, rfl, rfl, rfl, Writer.fits_new _, [], rfl, rfl⟩

/-- `real_write` followed by `clear` hands the block over, if it fits. -/
theorem Refines.emit {slack : Nat} {f : Ifile} {s : Writer} (h : Refines slack f s)
    (hle : f.c.length ≤ capacity) : Reaches slack (f.realWrite.map clear) s.emit := by
  by_cases hd : s.cur.docs = []
  · have hc : f.c = [] := h.docs.trans hd
    rw [Writer.emit_of_nil hd, realWrite, hc, if_pos List.length_nil]
    exact ⟨hd.symm, h.term, h.doc, h.slack_eq, h.fits, h.file⟩
  · have hc : f.c ≠ [] := fun h' => hd (h.docs.symm.trans h')
    rw [realWrite, if_neg (fun h' => hc (List.length_eq_zero_iff.mp h')), h.slack_eq]
    by_cases hfits : FitsWithin slack f.c
    · unfold capacity at hle
      have hsize : encodedSize f.c < 2 ^ 32 := encodedSize_lt_of_length (by omega)
      have hfile := Writer.blocks_append h.file
        (Block.ofChunk f.h.term f.h.doc f.c (f.heap 0) hc (by omega) hsize)
      have hgroup : groupOf (Block.ofChunk f.h.term f.h.doc f.c (f.heap 0) hc (by omega) hsize)
          = s.cur := by
        show (⟨f.h.term, f.h.doc, f.c⟩ : Group) = s.cur
        rw [h.term, h.doc, h.docs]
      rw [hgroup, Block.bytes, ← List.append_assoc] at hfile
      rw [compress_of_fits hfits]
      refine ⟨?_, ?_, ?_, h.slack_eq, ?_, ?_⟩
      · rw [Writer.emit_of_ne hd]
        rfl
      · rw [Writer.emit_of_ne hd]
        exact h.term
      · rw [Writer.emit_of_ne hd]
        exact h.doc
      · exact (Writer.forall_emit_out s _).mpr ⟨h.fits, fun _ => h.docs ▸ hfits⟩
      · rw [Writer.emit_of_ne hd]
        exact hfile
    · rw [compress_of_not_fits hfits]
      intro hall
      rw [h.docs] at hfits
      exact hfits (((Writer.forall_emit_out s _).mp hall).2 hd)

theorem Refines.start {slack : Nat} {f : Ifile} {s : Writer} (h : Refines slack f s) (t : Tupe) :
    Refines slack
      (if f.c.length = 0 then { f with h := { f.h with term := t.term, doc := t.doc } } else f)
      (s.start t) := by
  by_cases hd : s.cur.docs = []
  · rw [if_pos (by rw [h.docs, hd]; rfl), Writer.start_of_nil hd]
    exact ⟨h.docs.trans hd, rfl, rfl, h.slack_eq, h.fits, h.file⟩
  · rw [if_neg (by rw [h.docs]; exact fun h' => hd (List.length_eq_zero_iff.mp h')),
      Writer.start_of_ne hd]
    exact h

theorem Refines.change {slack : Nat} {f : Ifile} {s : Writer} (h : Refines slack f s)
    (hle : f.c.length ≤ capacity) (t : Tupe) :
    Reaches slack
      (if t.term ≠ f.h.term then
        (f.realWrite.map clear).map fun f => { f with h := { f.h with term := t.term } }
      else some f)
      (s.change true t) := by
  rw [h.term, Writer.change]
  split
  · refine (h.emit hle).map (fun f' h' => ?_) (fun hbad => hbad)
    exact ⟨h'.docs, rfl, h'.doc, h'.slack_eq, h'.fits, h'.file⟩
  · exact h

theorem Refines.push {slack : Nat} {f : Ifile} {s : Writer} (h : Refines slack f s) (d : UInt32) :
    Refines slack { f with c := f.c ++ [d] } (s.push d) :=
  ⟨congrArg (· ++ [d]) h.docs, h.term, h.doc, h.slack_eq, h.fits, h.file⟩

theorem Refines.close {slack : Nat} {f : Ifile} {s : Writer} (h : Refines slack f s)
    (hle : f.c.length ≤ capacity) :
    Reaches slack (if f.c.length = capacity then f.realWrite.map clear else some f)
      (s.close capacity) := by
  rw [Writer.close, ← h.docs]
  split
  · exact h.emit hle
  · exact h

/-- **One call of `write`** is one step of the abstract writer. -/
theorem Refines.write {slack : Nat} {f : Ifile} {s : Writer} (h : Refines slack f s)
    (hb : s.Bounded capacity) (t : Tupe) :
    Reaches slack (f.write t) (s.step capacity true t) := by
  have hstart := h.start t
  have hbs : (s.start t).Bounded capacity := hb.start t
  have hchange := hstart.change (by rw [hstart.docs]; exact hbs.cur_lt.le) t
  refine hchange.bind (fun f' h' => ?_) (fun hbad hfits => hbad hfits.change_of_step)
  refine (h'.push t.doc).close ?_
  have := (hbs.change true t).cur_lt
  rw [(h'.push t.doc).docs, Writer.push, List.length_append, List.length_singleton]
  omega

/-- **A run of `write`**. -/
theorem Refines.writeAll {slack : Nat} {f : Ifile} {s : Writer} (h : Refines slack f s)
    (hb : s.Bounded capacity) (ts : List Tupe) :
    Reaches slack (f.writeAll ts) (s.run capacity true ts) := by
  induction ts generalizing f s with
  | nil => exact h
  | cons t ts ih =>
      refine (h.write hb t).bind (fun f' h' => ih h' (hb.step true t)) (fun hbad hfits => hbad ?_)
      exact Writer.Fits.of_run ts hfits

/-- Writing tuple by tuple. -/
theorem foldl_write (f : Ifile) (ts : List Tupe) :
    ts.foldl (fun o t => o.bind (fun f => f.write t)) (some f) = f.writeAll ts := by
  have hnone : ∀ ts : List Tupe,
      ts.foldl (fun (o : Option Ifile) t => o.bind (fun f => f.write t)) none = none := by
    intro ts
    induction ts with
    | nil => rfl
    | cons t ts ih => exact ih
  induction ts generalizing f with
  | nil => rfl
  | cons t ts ih =>
      rw [List.foldl_cons, Option.bind_some, Ifile.writeAll]
      cases f.write t with
      | none => exact hnone ts
      | some f' => exact ih f'

/-- The groups that writing these tuples hands over, the one of the flush included. -/
def groups (ts : List Tupe) : List Group := (Writer.new.run capacity true ts).emit.out

/-- The groups stand for the tuples. -/
theorem groups_tuples (ts : List Tupe) : (groups ts).flatMap Group.tuples = ts := by
  rw [groups, Writer.emit_out_tuples, Writer.run_true_tuples]
  rfl

/-- Writing and flushing a new file is handing over the groups. -/
theorem reaches_flush (ts : List Tupe) (t₀ : Tupe) (heap : Heap) :
    Reaches heap.slack (((new FStream.create t₀ heap).writeAll ts).bind flush)
      (Writer.new.run capacity true ts).emit := by
  have hb : Writer.Bounded capacity Writer.new := Writer.bounded_new (by decide)
  refine ((refines_new t₀ heap).writeAll hb ts).bind (fun f h => h.emit ?_)
    (fun hbad hfits => hbad (Writer.Fits.of_emit hfits))
  rw [h.docs]
  exact (hb.run true ts).cur_lt.le

theorem refines_of_flush {ts : List Tupe} {t₀ : Tupe} {heap : Heap} {f : Ifile}
    (hf : ((new FStream.create t₀ heap).writeAll ts).bind flush = some f) :
    Refines heap.slack f (Writer.new.run capacity true ts).emit := by
  have hreach := reaches_flush ts t₀ heap
  rwa [hf] at hreach

/-- The groups have one to ten documents. -/
theorem groups_length {ts : List Tupe} {g : Group} (hg : g ∈ groups ts) :
    1 ≤ g.docs.length ∧ g.docs.length ≤ 10 := by
  have hb : (Writer.new.run capacity true ts).Bounded capacity :=
    (Writer.bounded_new (by decide)).run true ts
  have hbe : (Writer.new.run capacity true ts).emit.Bounded capacity :=
    Writer.Bounded.emit (by decide) hb.cur_lt.le hb.out_ne hb.out_le
  exact ⟨List.length_pos_iff.mpr (hbe.out_ne g hg), hbe.out_le g hg⟩

/-- The bytes are an index file of blocks of one to ten documents that decompress, that stand for
exactly these tuples, in order, and of which two neighbours have different terms or the first one is
full. -/
def Partitioned (ts : List Tupe) (file : List UInt8) : Prop :=
  ∃ bs : List Block, file = bs.flatMap Block.bytes
    ∧ (∀ b ∈ bs, 1 ≤ b.head.N.toNat ∧ b.head.N.toNat ≤ 10)
    ∧ bs.flatMap Block.tuples = ts
    ∧ bs.IsChain (fun a b => a.head.term ≠ b.head.term ∨ a.docs.length = 10)

/-- A file of the groups is partitioned. -/
theorem partitioned_of_groups {ts : List Tupe} {bs : List Block}
    (h : bs.map groupOf = groups ts) : Partitioned ts (bs.flatMap Block.bytes) := by
  refine ⟨bs, rfl, fun b hmem => ?_, ?_, ?_⟩
  · have hg : groupOf b ∈ groups ts := by
      rw [← h]
      exact List.mem_map_of_mem hmem
    rw [b.N_eq]
    exact groups_length hg
  · rw [Writer.blocks_tuples h, Writer.run_true_tuples]
    rfl
  · obtain ⟨hsep, hfull⟩ := Writer.separated_new capacity
    have hchain : (groups ts).IsChain (Writer.Apart capacity) := (hsep.run hfull ts).emit_chain
    rw [← h, List.isChain_map] at hchain
    exact hchain

/-- **When `write` and `flush` leave a partition of the tuples in the file**: exactly if every group
fits its buffer. -/
theorem write_partitioned_iff (ts : List Tupe) :
    (∀ (t₀ : Tupe) (mem : Nat → Mem), ∃ f,
      ((new FStream.create t₀ ⟨mem, 0⟩).writeAll ts).bind flush = some f
        ∧ Partitioned ts f.fs.written)
      ↔ ∀ g ∈ groups ts, (g.docs.length + 3) / 4 ≤ savedBytes (deltas 0 g.docs) := by
  have hfits : (Writer.new.run capacity true ts).emit.Fits 0
      ↔ ∀ g ∈ groups ts, (g.docs.length + 3) / 4 ≤ savedBytes (deltas 0 g.docs) := by
    refine forall₂_congr fun g hg => ?_
    have hlen := (groups_length hg).2
    rw [fitsWithin_zero]
    exact or_iff_right (by omega)
  rw [← hfits]
  constructor
  · intro h
    obtain ⟨f, hf, -⟩ := h ⟨0, 0⟩ (fun _ _ => 0)
    exact (refines_of_flush hf).fits
  · intro h t₀ mem
    obtain ⟨f, hf, href⟩ := (reaches_flush ts t₀ ⟨mem, 0⟩).exists_of_not (not_not.mpr h)
    obtain ⟨bs, hbytes, hout⟩ := href.file
    refine ⟨f, hf, ?_⟩
    rw [hbytes]
    exact partitioned_of_groups hout

/-- Ten documents of one term are one group. -/
theorem alternating_mem_groups : (⟨7, 3221225472, alternating 5⟩ : Group)
    ∈ groups ((alternating 5).map (Tupe.mk 7)) := by
  decide +kernel

/-- If every difference of the ten documents takes four bytes, `compress` writes 43 bytes to a buffer
of 40, whatever the memory holds. -/
theorem not_write_alternating :
    ¬ ∃ (t₀ : Tupe) (mem : Nat → Mem) (f : Ifile),
      ((new FStream.create t₀ ⟨mem, 0⟩).writeAll ((alternating 5).map (Tupe.mk 7))).bind flush
        = some f := by
  rintro ⟨t₀, mem, f, hf⟩
  have hfit := (refines_of_flush hf).fits _ alternating_mem_groups
  rw [fitsWithin_zero, savedBytes_alternating, alternating_length] at hfit
  omega

/-- The bytes are an index file in which every header names the first document of its block. -/
def NamesFirstDocs (file : List UInt8) : Prop :=
  ∃ bs : List Block, file = bs.flatMap Block.bytes ∧ ∀ b ∈ bs, b.docs.head? = some b.head.doc

/-- The headers of the file are those of the groups of the abstract writer. -/
theorem namesFirstDocs_iff {ts : List Tupe} {t₀ : Tupe} {heap : Heap} {f : Ifile}
    (hf : ((new FStream.create t₀ heap).writeAll ts).bind flush = some f) :
    NamesFirstDocs f.fs.written ↔ Writer.FirstDocs (Writer.new.run capacity true ts) := by
  obtain ⟨bs, hbytes, hout⟩ := (refines_of_flush hf).file
  have hgroups : (∀ g ∈ (Writer.new.run capacity true ts).emit.out, g.docs.head? = some g.doc)
      ↔ ∀ b ∈ bs, b.docs.head? = some b.head.doc := by
    rw [← hout, List.forall_mem_map]
    rfl
  rw [Writer.firstDocs_iff_emit, hgroups]
  constructor
  · rintro ⟨bs', hbytes', h⟩
    rwa [Block.flatMap_bytes_inj (hbytes.symm.trans hbytes')]
  · exact fun h => ⟨bs, hbytes, h⟩

/-- With three bytes to spare behind the buffers every run comes to its end. -/
theorem exists_flush (ts : List Tupe) (t₀ : Tupe) {heap : Heap} (h : 3 ≤ heap.slack) :
    ∃ f, ((new FStream.create t₀ heap).writeAll ts).bind flush = some f := by
  have hfits : (Writer.new.run capacity true ts).emit.Fits heap.slack := by
    intro g hg
    have hlen := (groups_length hg).2
    exact fitsWithin_of_le (by omega)
  obtain ⟨f, hf, -⟩ := (reaches_flush ts t₀ heap).exists_of_not (not_not.mpr hfits)
  exact ⟨f, hf⟩

/-- **When the header names the first document.** A change of the term renames the header but
leaves its document, so that this is the case exactly if no open block is followed by a tuple with
another term and with a document other than the first one of that block. It is so in every run that
comes to its end, and they all do if there are three bytes to spare behind the buffers. -/
theorem write_namesFirstDocs_iff (ts : List Tupe) (t₀ : Tupe) (heap : Heap) :
    (∀ f, ((new FStream.create t₀ heap).writeAll ts).bind flush = some f →
      (NamesFirstDocs f.fs.written ↔ AtEach (Writer.HeaderKept 10) ts))
    ∧ (3 ≤ heap.slack → ∃ f, ((new FStream.create t₀ heap).writeAll ts).bind flush = some f) := by
  refine ⟨fun f hf => ?_, exists_flush ts t₀⟩
  rw [namesFirstDocs_iff hf, Writer.run_true_firstDocs_iff (by decide)]
  rfl

/-- Two terms suffice, and nothing has to be spared: the second block starts with `7`, and its header
says `5`. -/
theorem not_namesFirstDocs_two :
    ∃ f, ((new FStream.create ⟨0, 0⟩ (Heap.zeros 0)).writeAll [⟨1, 5⟩, ⟨2, 7⟩]).bind flush = some f
      ∧ ¬ NamesFirstDocs f.fs.written := by
  have hfits : (Writer.new.run capacity true [⟨1, 5⟩, ⟨2, 7⟩]).emit.Fits 0 := by
    simp only [Writer.Fits, fitsWithin_zero]
    decide
  obtain ⟨f, hf, -⟩ := (reaches_flush [⟨1, 5⟩, ⟨2, 7⟩] ⟨0, 0⟩ (Heap.zeros 0)).exists_of_not
    (not_not.mpr hfits)
  refine ⟨f, hf, ?_⟩
  rw [namesFirstDocs_iff hf, Writer.run_true_firstDocs_iff (by decide)]
  intro h
  have h7 := h [⟨1, 5⟩] ⟨2, 7⟩ [] rfl
  exact absurd h7 (by unfold Writer.HeaderKept; decide)

end Ifile

end CSearch.Tool
