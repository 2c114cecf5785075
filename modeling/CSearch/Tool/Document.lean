import CSearch.Tool.Record

set_option autoImplicit false

/-! # `tool::document` and `tool::idocument`

A document is an id and a chunk of terms (`document.h`); on disk it is a record with a header of
three 32-bit fields. The id of a document has 64 bits, the one in the header 32.

`docs_readBack_iff` says which lists of documents come back from the file they are written to: the
conditions of `readsBack_iff` on the chunks, room for the bytes of `read_block` included, and ids and
sizes of less than `2^32`.
-/

namespace CSearch.Tool

open StreamVByte

/-- `doc_head`. -/
structure DocHead where
  id : UInt32
  N : UInt32
  bcount : UInt32
  deriving DecidableEq, Repr

namespace DocHead

/-- The 12 bytes of the `struct`. -/
def toBytes (h : DocHead) : List UInt8 := leWords [h.id, h.N, h.bcount]

/-- The `struct` in 12 bytes. -/
def ofBytes (bs : List UInt8) : DocHead := ⟨wordAt bs 0, wordAt bs 1, wordAt bs 2⟩

@[simp] theorem ofBytes_toBytes (h : DocHead) : ofBytes h.toBytes = h := by
  have hw := wordAt_leWords [h.id, h.N, h.bcount]
  simp only [ofBytes, toBytes, hw 0 h.id rfl, hw 1 h.N rfl, hw 2 h.bcount rfl]

/-- The layout of `doc_head`. -/
def codec : HeadCodec DocHead where
  size := 12
  toBytes := toBytes
  ofBytes := ofBytes
  count := DocHead.N
  bcount := DocHead.bcount
  length_toBytes := fun h => leWords_length [h.id, h.N, h.bcount]
  ofBytes_toBytes := ofBytes_toBytes

end DocHead

/-- An id of 32 bits is kept by the header. -/
theorem toUInt64_toUInt32 {id : UInt64} (h : id.toNat < 2 ^ 32) : id.toUInt32.toUInt64 = id := by
  apply UInt64.toNat_inj.mp
  rw [UInt32.toNat_toUInt64, UInt64.toNat_toUInt32, Nat.mod_eq_of_lt h]

/-- `tool::document`. -/
structure Document where
  id : UInt64
  c : Chunk
  h : DocHead

namespace Document

/-- The constructor. -/
def new : Document := ⟨0, [], ⟨0, 0, 0⟩⟩

/-- `document::write`. The id is narrowed to the field of the header. -/
def write (d : Document) (fs : FStream) (heap : Mem) (slack : Nat) : Option (Document × FStream) :=
  if d.c.length = 0 then some (d, fs)
  else
    (d.c.compress heap slack).map fun r =>
      let h : DocHead := ⟨d.id.toUInt32, UInt32.ofNat d.c.length, r.bcount⟩
      ({ d with h := h }, (fs.write h.toBytes).write (r.cbuffer.load 0 h.bcount.toNat))

/-- `document::read`. -/
def read (d : Document) (fs : FStream) (heap : Mem) (slack : Nat) :
    Option (Bool × Document × FStream) :=
  if fs.eof then some (false, d, fs)
  else
    let r := readHead DocHead.codec fs d.h
    (Chunk.readBlock r.2 r.1.N r.1.bcount heap slack).map fun b =>
      (true, ⟨r.1.id.toUInt64, b.1, r.1⟩, b.2)

end Document

/-- `tool::idocument`, and the memory the next allocations return. -/
structure Idocument where
  fs : FStream
  doc : Document
  heap : Heap

namespace Idocument

/-- The constructor. -/
def new (fs : FStream) (heap : Heap) : Idocument := ⟨fs, Document.new, heap⟩

/-- `idocument::read`. -/
def read (f : Idocument) : Option (Bool × Idocument) :=
  (f.doc.read f.fs (f.heap 0) f.heap.slack).map fun r =>
    (r.1, ⟨r.2.2, r.2.1, if r.1 then f.heap.drop 1 else f.heap⟩)

/-- Writing documents in order, each with `idocument::write`. -/
def writeAll : List Document → Heap → FStream → Option FStream
  | [], _, fs => some fs
  | d :: ds, heap, fs =>
      (d.write fs (heap 0) heap.slack).bind fun r => writeAll ds (heap.drop 1) r.2

/-! ## Reading is reading records -/

/-- What `read` works on. -/
def toRec (f : Idocument) : RecState DocHead := ⟨f.fs, f.doc.h, f.doc.c, f.heap⟩

theorem read_toRec (f : Idocument) :
    f.read.map (Prod.map id toRec) = readRecord DocHead.codec f.toRec := by
  unfold read Document.read readRecord toRec
  dsimp only
  split
  · rfl
  · rw [Option.map_map, Option.map_map]
    rfl

/-- The document in a record. -/
def docOf (h : DocHead) (c : Chunk) : Document := ⟨h.id.toUInt64, c, h⟩

/-- After a successful read the document is one in a record: the id is that of the header, and it
and the size have 32 bits. -/
theorem read_true {f f' : Idocument} (h : f.read = some (true, f')) :
    f'.doc = docOf f'.doc.h f'.doc.c ∧ f'.doc.c.length < 2 ^ 32 := by
  obtain ⟨r, hr, hf⟩ := Option.map_eq_some_iff.mp h
  unfold Document.read at hr
  split at hr
  · rw [Option.some.injEq] at hr
    rw [← hr] at hf
    exact absurd (congrArg Prod.fst hf) Bool.false_ne_true
  · obtain ⟨b, hb, rfl⟩ := Option.map_eq_some_iff.mp hr
    rw [Prod.mk.injEq] at hf
    rw [← hf.2]
    refine ⟨rfl, ?_⟩
    unfold Chunk.readBlock at hb
    dsimp only at hb
    split at hb
    · rw [Option.some.injEq] at hb
      rw [← hb]
      show (Chunk.decompress _ _).length < 2 ^ 32
      rw [decompress_length]
      exact UInt32.toNat_lt _
    · exact absurd hb (by simp)

/-- Ids and sizes that were read have 32 bits. -/
theorem read_lt {f f' : Idocument} (h : f.read = some (true, f')) :
    f'.doc.id.toNat < 2 ^ 32 ∧ f'.doc.c.length < 2 ^ 32 := by
  obtain ⟨hdoc, hlen⟩ := read_true h
  refine ⟨?_, hlen⟩
  rw [hdoc]
  show (UInt32.toUInt64 _).toNat < 2 ^ 32
  rw [UInt32.toNat_toUInt64]
  exact UInt32.toNat_lt _

/-- Seeing documents is seeing records, whatever is looked at. -/
theorem yields_read_iff {ω : Type} (g : Document → ω) (f : Idocument) (l : List ω) :
    Yields read (fun f => g f.doc) f l
      ↔ Yields (readRecord DocHead.codec) (RecState.seen (fun h c => g (docOf h c))) f.toRec l := by
  rw [← yields_map (RecState.seen (fun h c => g (docOf h c))) toRec read_toRec]
  refine yields_congr (fun s s' hs => ?_) f l
  show g s'.doc = g (docOf s'.doc.h s'.doc.c)
  rw [← (read_true hs).1]

/-- Which files of records deliver their documents. -/
theorem yields_read_new (rs : List (Record DocHead.codec)) (heap : Heap)
    (ha : Aligned heap.slack (rs.map Record.chunk)) :
    Yields read Idocument.doc (new (FStream.openIn (fileBytes rs)) heap)
      (rs.map (fun r => docOf r.head r.chunk)) := by
  have hview : ∀ h h' c c', docOf h c = docOf h' c' → c = c' :=
    fun _ _ _ _ h => congrArg Document.c h
  exact (yields_read_iff id _ _).mpr
    ((readsBack_iff docOf hview rs ⟨0, 0, 0⟩ [] heap.slack).mpr ha heap.mem)

/-! ## The round trip -/

/-- The documents come back from a file they are written to. -/
def DocsReadBack (slack : Nat) (ds : List Document) : Prop :=
  ∀ wmem rmem : Nat → Mem, ∃ fs, writeAll ds ⟨wmem, slack⟩ FStream.create = some fs
    ∧ Yields read (fun f => (f.doc.id, f.doc.c)) (new (FStream.openIn fs.written) ⟨rmem, slack⟩)
      (ds.map (fun d => (d.id, d.c)))

/-- What comes back has 32 bits. -/
theorem DocsReadBack.lt {slack : Nat} {ds : List Document} (h : DocsReadBack slack ds) :
    ∀ d ∈ ds, d.id.toNat < 2 ^ 32 ∧ d.c.length < 2 ^ 32 := by
  intro d hd
  obtain ⟨fs, -, hy⟩ := h (fun _ _ => 0) (fun _ _ => 0)
  have hall := hy.forall_mem
    (P := fun x => x.1.toNat < 2 ^ 32 ∧ x.2.length < 2 ^ 32) (fun s s' hs => read_lt hs)
  exact hall _ (List.mem_map_of_mem hd)

/-- The record a document is written as. -/
def recordOf (d : Document) (hpos : 0 < d.c.length) (hlt : d.c.length < 2 ^ 32) :
    Record DocHead.codec where
  head := ⟨d.id.toUInt32, UInt32.ofNat d.c.length, (d.c.encode (fun _ => 0)).bcount⟩
  chunk := d.c
  pos := hpos
  lt := hlt
  count_eq := rfl
  bcount_eq := rfl

/-- Whatever the memory holds, `document::write` appends the bytes of that record, if they fit in
the buffer. -/
theorem write_written (d : Document) (hpos : 0 < d.c.length) (hlt : d.c.length < 2 ^ 32)
    {slack : Nat} (hfits : FitsWithin slack d.c) (fs : FStream) (heap : Mem) :
    ∃ d' fs', d.write fs heap slack = some (d', fs')
      ∧ fs'.written = fs.written ++ (recordOf d hpos hlt).bytes := by
  have hb := encode_bcount hlt heap
  have hpay := (recordOf d hpos hlt).payload_eq heap
  rw [Document.write, if_neg (by omega), compress_of_fits hfits, Option.map_some]
  refine ⟨_, _, rfl, ?_⟩
  rw [Record.bytes, ← hpay, ← List.append_assoc]
  show fs.written ++ _ ++ _ = fs.written ++ _ ++ _
  simp only [recordOf, DocHead.codec, hb, encode_bcount hlt (fun _ => 0)]

theorem write_eq_none {d : Document} (hpos : 0 < d.c.length) {slack : Nat}
    (hfits : ¬ FitsWithin slack d.c) (fs : FStream) (heap : Mem) : d.write fs heap slack = none := by
  rw [Document.write, if_neg (by omega), compress_of_not_fits hfits, Option.map_none]

/-- What is looked at in the round trip: the id and the terms. -/
def view (h : DocHead) (c : Chunk) : UInt64 × Chunk := (h.id.toUInt64, c)

/-- The file is a file of records. -/
theorem writeAll_records (ds : List Document)
    (h : ∀ d ∈ ds, 0 < d.c.length ∧ d.id.toNat < 2 ^ 32 ∧ d.c.length < 2 ^ 32) :
    ∃ rs : List (Record DocHead.codec),
      rs.map Record.chunk = ds.map Document.c
        ∧ rs.map (Record.seen view) = ds.map (fun d => (d.id, d.c))
        ∧ ∀ heap fs, (∀ d ∈ ds, FitsWithin heap.slack d.c) →
          ∃ fs', writeAll ds heap fs = some fs' ∧ fs'.written = fs.written ++ fileBytes rs := by
  induction ds with
  | nil => exact ⟨[], rfl, rfl, fun _ fs _ => ⟨fs, rfl, (List.append_nil fs.written).symm⟩⟩
  | cons d ds ih =>
      obtain ⟨⟨hpos, hid, hlt⟩, htail⟩ := List.forall_mem_cons.mp h
      obtain ⟨rs, hchunk, hseen, hfile⟩ := ih htail
      refine ⟨recordOf d hpos hlt :: rs, ?_, ?_, fun heap fs hfits => ?_⟩
      · rw [List.map_cons, List.map_cons, hchunk]
        rfl
      · rw [List.map_cons, List.map_cons, hseen]
        show (d.id.toUInt32.toUInt64, d.c) :: _ = _
        rw [toUInt64_toUInt32 hid]
      · obtain ⟨hfit, hfits⟩ := List.forall_mem_cons.mp hfits
        obtain ⟨d', fs₁, hw, hfs₁⟩ := write_written d hpos hlt hfit fs (heap 0)
        obtain ⟨fs₂, hall, hfs₂⟩ := hfile (heap.drop 1) fs₁ hfits
        refine ⟨fs₂, by rw [writeAll, hw, Option.bind_some, hall], ?_⟩
        rw [hfs₂, hfs₁, fileBytes_cons, List.append_assoc]

/-- Documents that have been written fit. -/
theorem fits_of_writeAll {ds : List Document} (hpos : ∀ d ∈ ds, 0 < d.c.length) {heap : Heap}
    {fs fs' : FStream} (h : writeAll ds heap fs = some fs') :
    ∀ d ∈ ds, FitsWithin heap.slack d.c := by
  induction ds generalizing heap fs with
  | nil => exact fun d hd => absurd hd List.not_mem_nil
  | cons d ds ih =>
      obtain ⟨hd, hds⟩ := List.forall_mem_cons.mp hpos
      obtain ⟨r, hr, hall⟩ := Option.bind_eq_some_iff.mp h
      have hfits : ∀ d ∈ ds, FitsWithin (heap.drop 1).slack d.c := ih hds hall
      refine List.forall_mem_cons.mpr ⟨?_, hfits⟩
      by_contra hno
      rw [write_eq_none hd hno] at hr
      exact absurd hr (by simp)

/-- Aligned chunks fit in the buffers of `compress`. -/
theorem fits_of_aligned {slack : Nat} {vs : List Chunk} (h : Aligned slack vs)
    (hlt : ∀ v ∈ vs, v.length < 2 ^ 32) : ∀ v ∈ vs, FitsWithin slack v := by
  have hle : ∀ v ∈ vs, encodedSize v ≤ 4 * v.length := by
    clear hlt
    induction vs with
    | nil => exact fun v hv => absurd hv List.not_mem_nil
    | cons v vs ih =>
        cases vs with
        | nil => exact List.forall_mem_singleton.mpr h.2.2.1.le
        | cons w vs => exact List.forall_mem_cons.mpr ⟨h.2.2.1.le, ih h.2.2.2⟩
  intro v hv
  rw [fitsWithin_iff (hlt v hv)]
  exact (hle v hv).trans (Nat.le_add_right _ _)

/-- The round trip of documents of 32 bits is that of their records. -/
theorem docsReadBack_iff_aligned (slack : Nat) (ds : List Document)
    (h : ∀ d ∈ ds, 0 < d.c.length ∧ d.id.toNat < 2 ^ 32 ∧ d.c.length < 2 ^ 32) :
    DocsReadBack slack ds ↔ Aligned slack (ds.map Document.c) := by
  obtain ⟨rs, hchunk, hseen, hfile⟩ := writeAll_records ds h
  have hview : ∀ h h' c c', view h c = view h' c' → c = c' :=
    fun _ _ _ _ h => (Prod.ext_iff.mp h).2
  have hread := readsBack_iff view hview rs ⟨0, 0, 0⟩ [] slack
  rw [hchunk, hseen] at hread
  rw [← hread]
  -- what is written is the file of the records
  have hwritten : ∀ {wmem : Nat → Mem} {fs : FStream},
      writeAll ds ⟨wmem, slack⟩ FStream.create = some fs → fs.written = fileBytes rs := by
    intro wmem fs hfs
    obtain ⟨fs', hfs', hbytes⟩ := hfile ⟨wmem, slack⟩ FStream.create
      (fits_of_writeAll (fun d hd => (h d hd).1) hfs)
    rw [hfs, Option.some.injEq] at hfs'
    rw [hfs', hbytes]
    rfl
  constructor
  · intro hback mem
    obtain ⟨fs, hfs, hy⟩ := hback (fun _ _ => 0) mem
    rw [hwritten hfs, yields_read_iff (fun d => (d.id, d.c))] at hy
    exact hy
  · intro hy wmem rmem
    have hfits : ∀ d ∈ ds, FitsWithin slack d.c := by
      intro d hd
      refine fits_of_aligned (hread.mp hy) ?_ d.c (List.mem_map_of_mem hd)
      rw [List.forall_mem_map]
      exact fun d hd => (h d hd).2.2
    obtain ⟨fs, hfs, -⟩ := hfile ⟨wmem, slack⟩ FStream.create hfits
    refine ⟨fs, hfs, ?_⟩
    rw [hwritten hfs, yields_read_iff (fun d => (d.id, d.c))]
    exact hy rmem

/-- **Which lists of documents come back**: there is at least one document, all ids and sizes have
32 bits, every payload has room in the object of `read_block` and the bytes that can be used behind
it, every chunk but the last takes exactly four bytes per term, and the last one takes fewer and its
keys fit. Without bytes behind the object no list does. -/
theorem docs_readBack_iff (slack : Nat) (ds : List Document) (hne : ∀ d ∈ ds, d.c ≠ []) :
    (DocsReadBack slack ds ↔ ds ≠ []
      ∧ (∀ d ∈ ds, d.id.toNat < 2 ^ 32 ∧ d.c.length < 2 ^ 32)
      ∧ (∀ v ∈ ds.map Document.c, encodedSize v < 2 ^ 32 ∧ encodedSize v ≤ 1 + slack)
      ∧ (∀ v ∈ (ds.map Document.c).dropLast, encodedSize v = 4 * v.length)
      ∧ (∀ v ∈ (ds.map Document.c).getLast?, encodedSize v < 4 * v.length ∧ KeysFit v))
    ∧ ¬ DocsReadBack 0 ds := by
  have hfit : (∀ d ∈ ds, d.id.toNat < 2 ^ 32 ∧ d.c.length < 2 ^ 32) →
      ∀ d ∈ ds, 0 < d.c.length ∧ d.id.toNat < 2 ^ 32 ∧ d.c.length < 2 ^ 32 :=
    fun h32 d hd => ⟨List.length_pos_iff.mpr (hne d hd), h32 d hd⟩
  constructor
  · constructor
    · intro h
      obtain ⟨h1, h2, h3, h4⟩ :=
        (aligned_iff slack _).mp ((docsReadBack_iff_aligned slack ds (hfit h.lt)).mp h)
      exact ⟨fun h' => h1 (by rw [h', List.map_nil]), h.lt, h2, h3, h4⟩
    · rintro ⟨h1, h32, h2, h3, h4⟩
      exact (docsReadBack_iff_aligned slack ds (hfit h32)).mpr
        ((aligned_iff slack _).mpr ⟨fun h' => h1 (List.map_eq_nil_iff.mp h'), h2, h3, h4⟩)
  · intro h
    obtain ⟨rs, hchunk, -⟩ := writeAll_records ds (hfit h.lt)
    have ha := (docsReadBack_iff_aligned 0 ds (hfit h.lt)).mp h
    rw [← hchunk] at ha
    exact not_aligned_zero rs ha

/-- A single document comes back if there is room for its payload. -/
theorem docs_readBack_single :
    (∀ d ∈ [(⟨7, [1, 2, 3], ⟨0, 0, 0⟩⟩ : Document)], d.c ≠ [])
      ∧ DocsReadBack 3 [⟨7, [1, 2, 3], ⟨0, 0, 0⟩⟩] :=
  ⟨by simp, (docs_readBack_iff 3 [⟨7, [1, 2, 3], ⟨0, 0, 0⟩⟩] (by simp)).1.mpr
    ⟨by simp, by simp, List.forall_mem_singleton.mpr (by decide), by simp, by
      simp only [List.map_cons, List.map_nil, List.getLast?_singleton, Option.mem_some_iff]
      rintro v rfl
      exact ⟨by decide, Or.inl (by decide)⟩⟩⟩

/-- Two documents of one term each do not, whatever room there is: their payloads have two bytes,
and `read_block` takes four. -/
theorem not_docsReadBack_two :
    ¬ ∃ slack, DocsReadBack slack [⟨1, [5], ⟨0, 0, 0⟩⟩, ⟨2, [6], ⟨0, 0, 0⟩⟩] := by
  rintro ⟨slack, h⟩
  obtain ⟨-, -, h4, -⟩ := (docsReadBack_iff_aligned slack _ (by simp)).mp h
  exact absurd h4 (by decide)

end Idocument

end CSearch.Tool
