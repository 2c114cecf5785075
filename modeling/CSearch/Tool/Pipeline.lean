import CSearch.Tool.Dsort
import CSearch.Tool.IfileRead
import CSearch.Tool.Merge

set_option autoImplicit false

/-! # Files from end to end

The program writes index files with `ifile::write` and `ifile::flush`, opens them again, and merges
them into another one; it writes documents, opens their files again, and inverts them (`tool.cc`).
Here the pieces are put together, from what is written to the result of `merge` and `dsort`.

A file is only read back if it has one block, or blocks of very special sizes, and if there is room
for its payloads behind the objects of one byte that `read_block` allocates. So these results are
about the documents of one term that fit in a block, ten at most (`ShortPosting`), and about
allocators that leave this room. Such a file comes back tuple by tuple (`written_readsBack`), and
merging any number of them gives an index file with all documents in order (`merge_indexFiles`).

For documents the condition of `docs_readBack_iff` stands (`DocFile`). `dsort` computes the postings of
every term and keeps them to itself: nothing is written (`dsort_docFiles`).
-/

namespace CSearch.Tool

open Index StreamVByte

/-! ## Reading with `next` -/

namespace BlockSource

variable {σ : Type} {S : BlockSource σ} {r : Reader σ} {term : UInt32} {ds : List UInt32}
  {bs : List Posting}

/-- `ifile::read` for a caller that passes the tuple it got last. -/
def next (S : BlockSource σ) (r : Reader σ) : Option (Bool × Reader σ) :=
  (S.read r r.t).map fun p => (p.1, p.2.2)

/-- A document of a block comes out, and then the rest. -/
theorem At.yields_cons {d : UInt32} {l : List Tupe} (h : S.At r term (d :: ds) bs) (hd : d ≠ 0)
    (ih : Yields S.next Reader.t { r with it := r.it + 1, t := { r.t with doc := d } } l) :
    Yields S.next Reader.t r (⟨term, d⟩ :: l) := by
  refine ⟨_, by rw [BlockSource.next, h.read_cons hd, Option.map_some], ?_, ih⟩
  show (⟨r.t.term, d⟩ : Tupe) = ⟨term, d⟩
  rw [h.term_eq]

/-- Such a caller comes with the right term, so that only documents `0` are in the way. -/
theorem At.yields (h : S.At r term ds bs) (hds : ∀ d ∈ ds, d ≠ 0)
    (hbs : ∀ b ∈ bs, ∀ d ∈ b.more, d ≠ 0) :
    Yields S.next Reader.t r (ds.map (Tupe.mk term) ++ bs.flatMap Posting.tuples) := by
  induction bs generalizing r term ds with
  | nil =>
      induction ds generalizing r with
      | nil =>
          obtain ⟨r', hr'⟩ := readNext_nil h.delivers r.t
          exact ⟨r', by rw [BlockSource.next, h.read_nil, hr', Option.map_some]⟩
      | cons d ds ih =>
          rw [List.forall_mem_cons] at hds
          exact h.yields_cons hds.1 (ih h.next hds.2)
  | cons b bs ihb =>
      rw [List.forall_mem_cons] at hbs
      induction ds generalizing r with
      | nil =>
          obtain ⟨r', hread, ht, hat⟩ := readNext_cons h.delivers r.t
          show Yields S.next Reader.t r (⟨b.term, b.first⟩
            :: (b.more.map (Tupe.mk b.term) ++ bs.flatMap Posting.tuples))
          exact ⟨r', by rw [BlockSource.next, h.read_nil, hread, Option.map_some], ht,
            ihb hat hbs.1 hbs.2⟩
      | cons d ds ih =>
          rw [List.forall_mem_cons] at hds
          exact h.yields_cons hds.1 (ih h.next hds.2)

end BlockSource

namespace Ifile

/-- A fresh object over a file whose blocks are delivered. -/
theorem yields_next_of_delivers {fs : FStream} {t : Tupe} {heap : Heap} {bs : List Posting}
    (hdel : source.Delivers (new fs t heap).toRec bs) (hbs : ∀ b ∈ bs, ∀ d ∈ b.more, d ≠ 0) :
    Yields next Ifile.t (new fs t heap) (bs.flatMap Posting.tuples) := by
  have hat := BlockSource.at_fresh rfl hdel t
  have hstep : ∀ f : Ifile, f.next.map (Prod.map id reader) = source.next f.reader := by
    intro f
    have h : _ = source.read f.reader f.reader.t := read_reader f f.t
    rw [BlockSource.next, ← h, next, Option.map_map, Option.map_map]
    rfl
  refine (yields_map Reader.t reader hstep (new fs t heap) _).mpr ?_
  exact hat.yields (by simp) hbs

/-! ## One term -/

/-- The file that `write` and `flush` make of tuples. -/
def written (ts : List Tupe) (t₀ : Tupe) (heap : Heap) : Option (List UInt8) :=
  (((new FStream.create t₀ heap).writeAll ts).bind flush).map fun f => f.fs.written

/-- A document more for an open block. -/
theorem write_open {f : Ifile} (hne : f.c ≠ []) (d : UInt32) :
    f.write ⟨f.h.term, d⟩
      = if f.c.length + 1 = capacity then { f with c := f.c ++ [d] }.flush
        else some { f with c := f.c ++ [d] } := by
  have hlen : f.c.length ≠ 0 := fun h => hne (List.length_eq_zero_iff.mp h)
  simp only [write, if_neg hlen, ne_eq, not_true_eq_false, if_false, Option.bind_some,
    List.length_append, List.length_singleton, flush]

/-- Nothing is left to write of a block without documents. -/
theorem flush_clear (f : Ifile) : f.clear.flush = some f.clear := by
  rw [flush, realWrite, if_pos (show f.clear.c.length = 0 from rfl)]
  rfl

/-- Documents more for an open block, as long as they fit in it: one block is written. -/
theorem flush_writeAll {f : Ifile} (hne : f.c ≠ []) (docs : List UInt32)
    (hlen : f.c.length + docs.length ≤ capacity) :
    (f.writeAll (docs.map (Tupe.mk f.h.term))).bind flush = { f with c := f.c ++ docs }.flush := by
  induction docs generalizing f with
  | nil =>
      rw [List.append_nil]
      rfl
  | cons d docs ih =>
      rw [List.length_cons] at hlen
      have happ : f.c ++ d :: docs = f.c ++ [d] ++ docs := List.append_cons ..
      rw [List.map_cons, writeAll, write_open hne, happ]
      by_cases hfull : f.c.length + 1 = capacity
      · -- the block is full, so this was the last document
        have hnil : docs = [] := List.eq_nil_of_length_eq_zero (by omega)
        subst hnil
        rw [if_pos hfull, List.append_nil, flush, List.map_nil]
        cases realWrite { f with c := f.c ++ [d] } with
        | none => rfl
        | some f' => exact flush_clear f'
      · rw [if_neg hfull, Option.bind_some]
        refine ih (f := { f with c := f.c ++ [d] }) (by simp) ?_
        rw [List.length_append, List.length_singleton]
        omega

/-- A block that fits is appended to the file. -/
theorem flush_written {f : Ifile} (hpos : 0 < f.c.length) (hlt : f.c.length < 2 ^ 32)
    (hfits : FitsWithin f.heap.slack f.c) :
    f.flush.map (fun f => f.fs.written)
      = some (f.fs.written ++ (recordOf f.h.term f.h.doc f.c hpos hlt).bytes) := by
  have hb := encode_bcount hlt (f.heap 0)
  have hpay := (recordOf f.h.term f.h.doc f.c hpos hlt).payload_eq (f.heap 0)
  rw [flush, realWrite, if_neg (by omega), compress_of_fits hfits, Record.bytes, ← hpay,
    ← List.append_assoc]
  show some (f.fs.written ++ _ ++ _) = some (f.fs.written ++ _ ++ _)
  simp only [recordOf, headCodec, hb, encode_bcount hlt (fun _ => 0)]

end Ifile

/-- The documents of a term that fit in one block and come back from it: the payload is shorter than
what `read_block` asks for, so that the end of the file is seen, and no document but the first is
`0`. -/
structure ShortPosting extends Posting where
  fits : toPosting.docs.length ≤ Ifile.capacity
  short : encodedSize toPosting.docs < 4 * toPosting.docs.length
  nonzero : 0 ∉ more

namespace ShortPosting

variable (p : ShortPosting)

theorem docs_pos : 0 < p.docs.length := Nat.succ_pos _

theorem docs_lt : p.docs.length < 2 ^ 32 := lt_of_le_of_lt p.fits (by decide)

/-- The block on disk. -/
def record : Record Ifile.headCodec := Ifile.recordOf p.term p.first p.docs p.docs_pos p.docs_lt

/-- What `write` and `flush` leave in the file is one block. -/
theorem written_eq (t₀ : Tupe) (heap : Heap) :
    Ifile.written p.tuples t₀ heap = some (fileBytes [p.record]) := by
  set f : Ifile := { Ifile.new FStream.create t₀ heap with
    h := ⟨0, p.term, p.first, 0⟩, c := [p.first] } with hf
  have hfirst : (Ifile.new FStream.create t₀ heap).write ⟨p.term, p.first⟩ = some f := by
    simp [Ifile.write, Ifile.new, Ifile.capacity, hf]
  have hcap : [p.first].length + p.more.length ≤ Ifile.capacity := by
    rw [List.length_singleton, Nat.add_comm]
    exact p.fits
  have hrest := Ifile.flush_writeAll (f := f) (List.cons_ne_nil _ _) p.more hcap
  have hfits : FitsWithin heap.slack p.docs := by
    rw [fitsWithin_iff p.docs_lt]
    exact p.short.le.trans (Nat.le_add_right _ _)
  have hblock := Ifile.flush_written (f := { f with c := p.docs }) p.docs_pos p.docs_lt hfits
  rw [Ifile.written, Posting.tuples, Posting.docs, List.map_cons, Ifile.writeAll, hfirst,
    Option.bind_some]
  rw [show p.term = f.h.term from rfl, hrest]
  refine hblock.trans (congrArg some ?_)
  rw [fileBytes_cons]
  exact (List.append_nil _).symm

variable {p}

/-- The block is delivered, if there is room for it. -/
theorem delivers {heap : Heap} (hroom : encodedSize p.docs ≤ 1 + heap.slack) (t : Tupe) :
    Ifile.source.Delivers (Ifile.new (FStream.openIn (fileBytes [p.record])) t heap).toRec
      [p.toPosting] := by
  have haligned : Aligned heap.slack ([p.record].map Record.chunk) :=
    ⟨encodedSize_lt_of_length (p.fits.trans (by decide)), hroom, p.short,
      Or.inl (lt_of_le_of_lt (Nat.add_le_add_right p.fits 3) (by decide))⟩
  exact (readsBack_iff (fun (h : ChunkHead) c => (h.term, h.doc, c))
    (fun _ _ _ _ h => (Prod.ext_iff.mp (Prod.ext_iff.mp h).2).2) [p.record] ⟨0, 0, 0, 0⟩ []
    heap.slack).mpr haligned heap.mem

theorem yields {heap : Heap} (hroom : encodedSize p.docs ≤ 1 + heap.slack) (t : Tupe) :
    Yields Ifile.next Ifile.t (Ifile.new (FStream.openIn (fileBytes [p.record])) t heap)
      p.tuples := by
  have hyields := Ifile.yields_next_of_delivers (delivers hroom t)
    (List.forall_mem_singleton.mpr (fun d hd h => p.nonzero (h ▸ hd)))
  rw [List.flatMap_singleton] at hyields
  exact hyields

end ShortPosting

/-- **An index file is read back**: what was written to it with `write` and `flush` comes out of it
tuple by tuple, whatever the memory holds, if there is room for the payload in `read_block`. -/
theorem written_readsBack (p : ShortPosting) (t₀ t : Tupe) (wheap rheap : Heap)
    (hroom : encodedSize p.docs ≤ 1 + rheap.slack) :
    ∃ file, Ifile.written p.tuples t₀ wheap = some file
      ∧ Yields Ifile.next Ifile.t (Ifile.new (FStream.openIn file) t rheap) p.tuples :=
  ⟨_, p.written_eq t₀ wheap, ShortPosting.yields hroom t⟩

/-- The files `A`, `B` and `C` of the program: every second, third and fourth number below ten. -/
def everyNth (i : Fin 3) : ShortPosting :=
  match i with
  | 0 => ⟨⟨1, 0, [2, 4, 6, 8]⟩, by decide, by decide, by decide⟩
  | 1 => ⟨⟨1, 0, [3, 6, 9]⟩, by decide, by decide, by decide⟩
  | 2 => ⟨⟨1, 0, [4, 8]⟩, by decide, by decide, by decide⟩

/-- The five documents of `A` take seven bytes. -/
theorem written_readsBack_everyNth :
    ∃ file, Ifile.written (everyNth 0).tuples ⟨0, 0⟩ (Heap.zeros 0) = some file
      ∧ Yields Ifile.next Ifile.t (Ifile.new (FStream.openIn file) ⟨0, 0⟩ (Heap.zeros 6))
        [⟨1, 0⟩, ⟨1, 2⟩, ⟨1, 4⟩, ⟨1, 6⟩, ⟨1, 8⟩] :=
  written_readsBack (everyNth 0) ⟨0, 0⟩ ⟨0, 0⟩ (Heap.zeros 0) (Heap.zeros 6) (by decide)

/-! ## Merging -/

/-- Tuples in order whose documents have three bytes are written as blocks of them, in order. -/
theorem Ifile.writeAll_blocks {ts : List Tupe} (hs : ts.Pairwise Tupe.le)
    (hsmall : ∀ t ∈ ts, t.doc.toNat < 2 ^ 24) (t₀ : Tupe) (heap : Heap) :
    ∃ (f : Ifile) (bs : List Block),
      ((Ifile.new FStream.create t₀ heap).writeAll ts).bind Ifile.flush = some f
        ∧ f.fs.written = bs.flatMap Block.bytes ∧ bs.flatMap Block.tuples = ts := by
  have hfits : (Writer.new.run Ifile.capacity true ts).emit.Fits heap.slack := by
    intro g hg
    -- the documents of a group are a part of the sequence
    have hsub : g.tuples.Sublist ts := by
      have hmem : g.tuples ∈ (Ifile.groups ts).map Group.tuples := List.mem_map_of_mem hg
      have h := List.sublist_flatten_of_mem hmem
      rwa [← List.flatMap_def, Ifile.groups_tuples] at h
    refine fitsWithin_of_ascending ?_ (fun d hd => ?_) _
    · refine (List.pairwise_map.mp (hs.sublist hsub)).imp (fun {a b} hab => ?_)
      rcases hab with hlt | hle
      · exact absurd hlt (UInt32.lt_irrefl _)
      · exact hle.2
    · exact hsmall _ (hsub.mem (List.mem_map_of_mem hd))
  obtain ⟨f, hf, href⟩ := (Ifile.reaches_flush ts t₀ heap).exists_of_not (not_not.mpr hfits)
  obtain ⟨bs, hbytes, hout⟩ := href.file
  refine ⟨f, bs, hf, hbytes, ?_⟩
  rw [Writer.blocks_tuples hout, Writer.run_true_tuples]
  rfl

/-- What `merge` writes to a new file, for inputs that deliver some tuples. -/
theorem Merge.merge_written {n : Nat} (S : StdSort) (inputs : Fin n → Ifile) (ls : Fin n → List Tupe)
    (hne : ∀ i, ls i ≠ []) (hy : ∀ i, Yields Ifile.next Ifile.t (inputs i) (ls i)) (outs : Ifile)
    {fuel : Nat} (hfuel : itemCount ls < fuel) :
    ∃ s, merge S fuel inputs outs = some s
      ∧ Interleaves ls s.calls ∧ s.out = (outs.writeAll s.calls).bind Ifile.flush := by
  obtain ⟨s, files, hs, habs, hperm, -⟩ :=
    start_abs S inputs (some outs) ls hne hy Merge.kind_strictWeak
  obtain ⟨u, hu, hint, -, -, hout⟩ := loop_conserves habs hperm hfuel
  refine ⟨_, Merge.merge_of_loop S inputs _ hs hu, hint, ?_⟩
  rw [← Ifile.foldl_write]
  exact congrArg (fun o => Option.bind o Ifile.flush) hout

/-- **From index files to an index file.** Any number of files, each with documents of the same term
in ascending order, all with the same first document and with documents of three bytes, are written,
opened and merged: if there is room for their payloads, the loop ends, and the result is an index
file with the documents of all files in ascending order. -/
theorem merge_indexFiles {n : Nat} (S : StdSort) (ps : Fin n → ShortPosting) (t₀ t : Tupe)
    (wheap rheap : Heap) (hroom : ∀ i, encodedSize (ps i).docs ≤ 1 + rheap.slack)
    (hterm : ∀ i j, (ps i).term = (ps j).term) (hfirst : ∀ i j, (ps i).first = (ps j).first)
    (hsorted : ∀ i, (ps i).docs.Pairwise (· ≤ ·)) (hsmall : ∀ i, ∀ d ∈ (ps i).docs, d.toNat < 2 ^ 24)
    (fuel : Nat) (hfuel : itemCount (fun i => (ps i).tuples) < fuel) :
    ∃ files : Fin n → List UInt8,
      (∀ i, Ifile.written (ps i).tuples t₀ wheap = some (files i))
      ∧ ∃ s f, ∃ bs : List Block,
        merge S fuel (fun i => Ifile.new (FStream.openIn (files i)) t rheap)
          (Ifile.new FStream.create t₀ wheap) = some s
        ∧ s.out = some f
        ∧ f.fs.written = bs.flatMap Block.bytes
        ∧ Interleaves (fun i => (ps i).tuples) (bs.flatMap Block.tuples)
        ∧ (bs.flatMap Block.tuples).Pairwise Tupe.le := by
  refine ⟨fun i => fileBytes [(ps i).record], fun i => (ps i).written_eq t₀ wheap, ?_⟩
  set inputs : Fin n → Ifile :=
    fun i => Ifile.new (FStream.openIn (fileBytes [(ps i).record])) t rheap with hinputs
  have hne : ∀ i, (ps i).tuples ≠ [] := fun i => List.cons_ne_nil _ _
  have hy : ∀ i, Yields Ifile.next Ifile.t (inputs i) (ps i).tuples :=
    fun i => ShortPosting.yields (hroom i) t
  have hmem : ∀ i, ∀ a ∈ (ps i).tuples, a.term = (ps i).term ∧ a.doc ∈ (ps i).docs := by
    intro i a ha
    obtain ⟨d, hd, rfl⟩ := List.mem_map.mp ha
    exact ⟨rfl, hd⟩
  -- with one term the order of the tuples is that of the documents
  have hle : ∀ {a b : Tupe}, a.term = b.term → (a.doc ≤ b.doc ↔ Tupe.le a b) := by
    intro a b hab
    rw [Tupe.le, hab]
    simp
  obtain ⟨s, hs, hint, hout⟩ :=
    Merge.merge_written S inputs _ hne hy (Ifile.new FStream.create t₀ wheap) hfuel
  obtain ⟨s', hs', hcalls⟩ := Merge.merge_sorted_of_docs S inputs (Ifile.new FStream.create t₀ wheap)
    (fun i => (ps i).tuples) hne hy
    (fun i => List.pairwise_map.mpr ((hsorted i).imp (fun h => Or.inr ⟨rfl, h⟩)))
    (fun i j a ha b hb => hle (by rw [(hmem i a ha).1, (hmem j b hb).1, hterm i j]))
    (fun i j _ => hfirst i j) hfuel
  rw [hs, Option.some.injEq] at hs'
  subst hs'
  have hdocs : ∀ a ∈ s.calls, a.doc.toNat < 2 ^ 24 := by
    intro a ha
    obtain ⟨i, hi⟩ := hint.mem_iff.mp ha
    exact hsmall i _ (hmem i a hi).2
  obtain ⟨f, bs, hf, hbytes, htuples⟩ := Ifile.writeAll_blocks hcalls hdocs t₀ wheap
  refine ⟨s, f, bs, hs, hout.trans hf, hbytes, ?_, ?_⟩
  · rw [htuples]
    exact hint
  · rw [htuples]
    exact hcalls

theorem everyNth_le (i : Fin 3) : ∀ d ∈ (everyNth i).docs, d.toNat ≤ 9 := by
  have hall : ∀ i, (everyNth i).docs.all (fun d => decide (d.toNat ≤ 9)) = true := by decide
  exact fun d hd => of_decide_eq_true (List.all_eq_true.mp (hall i) d hd)

theorem merge_indexFiles_everyNth :
    ∃ files : Fin 3 → List UInt8,
      (∀ i, Ifile.written (everyNth i).tuples ⟨0, 0⟩ (Heap.zeros 0) = some (files i))
      ∧ ∃ s f, ∃ bs : List Block,
        merge StdSort.mergeSort 13
          (fun i => Ifile.new (FStream.openIn (files i)) ⟨0, 0⟩ (Heap.zeros 6))
          (Ifile.new FStream.create ⟨0, 0⟩ (Heap.zeros 0)) = some s
        ∧ s.out = some f
        ∧ f.fs.written = bs.flatMap Block.bytes
        ∧ Interleaves (fun i => (everyNth i).tuples) (bs.flatMap Block.tuples)
        ∧ (bs.flatMap Block.tuples).Pairwise Tupe.le :=
  merge_indexFiles StdSort.mergeSort everyNth ⟨0, 0⟩ ⟨0, 0⟩ (Heap.zeros 0) (Heap.zeros 6) (by decide)
    (by decide) (by decide) (by decide)
    (fun i d hd => lt_of_le_of_lt (everyNth_le i d hd) (by decide)) 13 (by decide)

/-! ## Documents -/

/-- Documents that come back from the file they are written to, by ascending id, if so many bytes can
be used behind an object. -/
structure DocFile (slack : Nat) where
  docs : List Document
  fits : ∀ d ∈ docs, 0 < d.c.length ∧ d.id.toNat < 2 ^ 32 ∧ d.c.length < 2 ^ 32
  aligned : Aligned slack (docs.map Document.c)
  sorted : docs.Pairwise (fun a b => a.id ≤ b.id)

namespace DocFile

variable {slack : Nat}

/-- The file, written and opened for reading. -/
def opened (f : DocFile slack) (wmem rmem : Nat → Mem) : Option Idocument :=
  (Idocument.writeAll f.docs ⟨wmem, slack⟩ FStream.create).map fun fs =>
    Idocument.new (FStream.openIn fs.written) ⟨rmem, slack⟩

/-- Documents are delivered with the ids and the terms that were written. Their headers are those of
the file. -/
theorem delivers (f : DocFile slack) (wmem rmem : Nat → Mem) :
    ∃ file ls, f.opened wmem rmem = some file ∧ Yields Idocument.read Idocument.doc file ls
      ∧ ls.map (fun d => (d.id, d.c)) = f.docs.map (fun d => (d.id, d.c)) := by
  obtain ⟨rs, hchunk, hseen, hfile⟩ := Idocument.writeAll_records f.docs f.fits
  have hfits : ∀ d ∈ f.docs, FitsWithin slack d.c := by
    intro d hd
    refine Idocument.fits_of_aligned f.aligned ?_ d.c (List.mem_map_of_mem hd)
    rw [List.forall_mem_map]
    exact fun d hd => (f.fits d hd).2.2
  obtain ⟨fs, hfs, hbytes⟩ := hfile ⟨wmem, slack⟩ FStream.create hfits
  refine ⟨_, rs.map (fun r => Idocument.docOf r.head r.chunk),
    by rw [opened, hfs, Option.map_some], ?_, ?_⟩
  · rw [hbytes]
    refine Idocument.yields_read_new rs ⟨rmem, slack⟩ ?_
    rw [hchunk]
    exact f.aligned
  · rw [← hseen, List.map_map]
    rfl

end DocFile

section

variable {n : Nat} {ls : Fin n → List Document}

/-- Postings are a matter of the ids and the terms. -/
theorem postings_congr (t : UInt32) {as bs : List Document}
    (h : as.map (fun d => (d.id, d.c)) = bs.map (fun d => (d.id, d.c))) :
    postings t as = postings t bs := by
  have hfactor : ∀ ds : List Document, postings t ds
      = (ds.map (fun d => (d.id, d.c))).flatMap
          (fun p => List.replicate (p.2.count t) p.1.toUInt32) := by
    intro ds
    rw [List.flatMap_map]
    rfl
  rw [hfactor, hfactor, h]

/-- The postings of an interleaving are those of the lists, in another order. -/
theorem Interleaves.postings_perm {out : List Document} (h : Interleaves ls out) (t : UInt32) :
    (postings t out).Perm ((List.finRange n).flatMap (fun i => postings t (ls i))) := by
  rw [List.perm_iff_count]
  intro id
  have hsum := h.sum_eq (fun d => (List.replicate (d.c.count t) d.id.toUInt32).count id)
  calc (postings t out).count id
      = (out.map (fun d => (List.replicate (d.c.count t) d.id.toUInt32).count id)).sum := by
        rw [postings, List.count_flatMap]
        rfl
    _ = ((List.finRange n).map (fun i => (postings t (ls i)).count id)).sum := by
        rw [hsum, Fin.sum_univ_def]
        simp only [postings, List.count_flatMap]
        rfl
    _ = ((List.finRange n).flatMap (fun i => postings t (ls i))).count id := by
        rw [List.count_flatMap]
        rfl

end

/-- **From documents to postings.** Any number of files of documents are written, opened and
inverted: the loop ends, the list of a term has the postings of all files in ascending order, and a
term without postings has no list. The index file stays empty. -/
theorem dsort_docFiles {n slack : Nat} (S : StdSort) (fs : Fin n → DocFile slack) (limit : Int)
    (t₀ : Tupe) (wmem rmem : Nat → Mem) (fuel : Nat)
    (hfuel : itemCount (fun i => (fs i).docs) < fuel) :
    ∃ files : Fin n → Idocument, (∀ i, (fs i).opened wmem rmem = some (files i))
      ∧ ∃ s outs, dsort S fuel files limit (Ifile.new FStream.create t₀ ⟨wmem, slack⟩)
          = some (s, some outs)
        ∧ outs.fs.written = []
        ∧ ∀ t : UInt32, (s.out t = none ↔ ∀ i, ∀ d ∈ (fs i).docs, t ∉ d.c)
          ∧ ((s.out t).getD []).Pairwise (· ≤ ·)
          ∧ ((s.out t).getD []).Perm
            ((List.finRange n).flatMap (fun i => postings t (fs i).docs)) := by
  choose files ls hopened hy hls using fun i => (fs i).delivers wmem rmem
  refine ⟨files, hopened, ?_⟩
  have hlen : ∀ i, (ls i).length = (fs i).docs.length := by
    intro i
    have h := congrArg List.length (hls i)
    rwa [List.length_map, List.length_map] at h
  have hne : ∀ i, ls i ≠ [] := by
    intro i hnil
    have hdocs : (fs i).docs = [] := List.eq_nil_of_length_eq_zero (by rw [← hlen, hnil]; rfl)
    have haligned := (fs i).aligned
    rw [hdocs] at haligned
    exact haligned
  have hsorted : ∀ i, (ls i).Pairwise (fun a b => a.id ≤ b.id) := by
    intro i
    have h : ((fs i).docs.map (fun d => (d.id, d.c))).Pairwise (fun a b => a.1 ≤ b.1) :=
      List.pairwise_map.mpr (fs i).sorted
    rw [← hls, List.pairwise_map] at h
    exact h
  obtain ⟨s, files, hs, habs, hperm, hsort⟩ :=
    start_abs S files (fun _ => none) ls hne hy Dsort.kind_strictWeak
  have hcount : itemCount ls < fuel := by
    simp only [itemCount, hlen]
    exact hfuel
  obtain ⟨u, hu, hint, -, -, hout⟩ := loop_conserves habs hperm hcount
  have h32 := Dsort.calls_lt hint hy
  refine ⟨u, Ifile.new FStream.create t₀ ⟨wmem, slack⟩,
    by rw [dsort, hs, Option.bind_some, hu, Option.map_some]; rfl, rfl, fun t => ?_⟩
  have hmap : u.out = u.calls.foldl PostingMap.postAll (fun _ => none) := hout
  have hpost := hint.postings_perm t
  simp only [fun i => postings_congr t (hls i)] at hpost
  refine ⟨?_, ?_, ?_⟩
  · have hnil : postings t u.calls = [] ↔ ∀ i, postings t (fs i).docs = [] := by
      rw [← List.perm_nil, List.Perm.congr_left hpost, List.perm_nil, List.flatMap_eq_nil_iff]
      simp
    simp only [postings_eq_nil_iff] at hnil
    rw [hmap, posted_eq_none_iff, hnil]
  · rw [hmap, posted_getD]
    exact postings_sorted t (Dsort.calls_sorted habs hsort hsorted hu) h32
  · rw [hmap, posted_getD]
    exact hpost

/-- The file `EE` of the program, whose payload has three bytes. -/
def docEE : DocFile 2 where
  docs := [⟨123, [1, 2], ⟨0, 0, 0⟩⟩]
  fits := List.forall_mem_singleton.mpr ⟨Nat.le_of_ble_eq_true rfl, Nat.le_of_ble_eq_true rfl,
    Nat.le_of_ble_eq_true rfl⟩
  aligned := ⟨Nat.le_of_ble_eq_true rfl, Nat.le_of_ble_eq_true rfl, Nat.le_of_ble_eq_true rfl,
    Or.inl (Nat.le_of_ble_eq_true rfl)⟩
  sorted := List.pairwise_singleton _ _

theorem dsort_docFiles_single :
    ∃ files : Fin 1 → Idocument,
      (∀ i, docEE.opened (fun _ _ => 0) (fun _ _ => 0) = some (files i))
      ∧ ∃ s outs, dsort StdSort.mergeSort 2 files 10 (Ifile.new FStream.create ⟨0, 0⟩ (Heap.zeros 2))
          = some (s, some outs)
        ∧ outs.fs.written = [] ∧ s.out 3 = none ∧ (s.out 2).getD [] = [123] := by
  obtain ⟨files, hfiles, s, outs, hs, hempty, hall⟩ := dsort_docFiles StdSort.mergeSort
    (fun _ : Fin 1 => docEE) 10 ⟨0, 0⟩ (fun _ _ => 0) (fun _ _ => 0) 2 (by decide)
  refine ⟨files, hfiles, s, outs, hs, hempty, (hall 3).1.mpr (fun i d hd => ?_), ?_⟩
  · rw [List.mem_singleton.mp hd]
    decide
  · exact List.perm_singleton.mp (hall 2).2.2

end CSearch.Tool
