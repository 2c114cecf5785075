import CSearch.Tool.Ifile
import CSearch.Tool.KWay

set_option autoImplicit false

/-! # `tool::merge`

`merge` merges index files into one (`merge.cc`). Its inputs may have any tuples; every tuple is
passed on exactly once, in the order of its file (`merge_conserves`).

The order of the result is another matter. The array is sorted by the term of the first tuple
alone, and a file is put back by the document of its next tuple alone. `merge_sorted_iff` says
when tuples come out in the order of (term, document): the sort must have left the array in that
order, and every comparison of documents must come out as the comparison of tuples would.
-/

namespace CSearch.Tool

open KMerge (Queue)

/-! ## The function -/

namespace Merge

/-- What `merge` does its own way. The tuples are passed on whatever becomes of `outs`, of which
there is nothing left once a call of `write` has left its buffer. -/
def kind : Kind Ifile Tupe (Option Ifile) where
  read := Ifile.next
  item := Ifile.t
  sortLt a b := decide (a.term < b.term)
  searchLe a b := decide (a.doc ≤ b.doc)
  handle o t := o.bind fun f => f.write t

end Merge

/-- `tool::merge`. -/
def merge {n : Nat} (S : StdSort) (fuel : Nat) (inputs : Fin n → Ifile) (outs : Ifile) :
    Option (Sources n Ifile Tupe (Option Ifile)) :=
  ((Merge.kind.start S inputs (some outs)).bind (Merge.kind.loop fuel)).map
    fun s => { s with out := s.out.bind Ifile.flush }

namespace Merge

theorem kind_strictWeak : StrictWeak kind.sortLt := strictWeak_key (fun a : Tupe => a.term.toNat)

/-- The order of tuples is one the search could follow. -/
theorem kind_orderFor : OrderFor kind Tupe.le where
  trans a b c := by
    simp only [Tupe.le, UInt32.lt_iff_toNat_lt, UInt32.le_iff_toNat_le, ← UInt32.toNat_inj]
    omega
  total a b := by
    simp only [Tupe.le, UInt32.lt_iff_toNat_lt, UInt32.le_iff_toNat_le, ← UInt32.toNat_inj]
    omega
  le a b := by
    simp only [kind, decide_eq_true_eq, Tupe.le, UInt32.lt_iff_toNat_lt, UInt32.le_iff_toNat_le,
      ← UInt32.toNat_inj]
    omega

section

variable {n : Nat} (S : StdSort) (inputs : Fin n → Ifile) (outs : Ifile) (ls : Fin n → List Tupe)

theorem merge_of_loop {s t : Sources n Ifile Tupe (Option Ifile)} {fuel : Nat}
    (hs : kind.start S inputs (some outs) = some s) (ht : kind.loop fuel s = some t) :
    merge S fuel inputs outs = some { t with out := t.out.bind Ifile.flush } := by
  rw [merge, hs, Option.bind_some, ht, Option.map_some]

/-! ## Conservation -/

/-- The state at the start of the loop decides, with what the searches compare from there on. -/
theorem merge_sorted_iff_start {s : Sources n Ifile Tupe (Option Ifile)} {hne : ∀ i, ls i ≠ []}
    {files : List (Fin n)} (hs : kind.start S inputs (some outs) = some s)
    (habs : Abs kind (some outs) s (queuesOf ls hne files) []) (hperm : files.Perm (List.finRange n))
    (hsorted : ∀ i, (ls i).Pairwise Tupe.le) {fuel : Nat} (hfuel : itemCount ls < fuel) :
    ∃ t, merge S fuel inputs outs = some t
      ∧ (t.calls.Pairwise Tupe.le
        ↔ kind.LiveInOrder Tupe.le s ∧ ∀ u, kind.Reaches s u → kind.Agrees Tupe.le u) := by
  obtain ⟨t, ht, -⟩ := loop_conserves habs hperm hfuel
  have hiff := loop_sorted_iff_of_start kind_orderFor habs hsorted ht
  exact ⟨_, merge_of_loop S inputs outs hs ht, hiff⟩

/-- **When `merge` keeps the order.** If every file delivers some tuples, in order, they come out
in order exactly if the array is in order when the loop starts, and in every iteration each
comparison of documents made by the search agrees with the order of the tuples. -/
theorem merge_sorted_iff (hne : ∀ i, ls i ≠ [])
    (hy : ∀ i, Yields Ifile.next Ifile.t (inputs i) (ls i))
    (hsorted : ∀ i, (ls i).Pairwise Tupe.le) :
    ∃ s, kind.start S inputs (some outs) = some s ∧ ∀ fuel, itemCount ls < fuel →
      ∃ t, merge S fuel inputs outs = some t
        ∧ (t.calls.Pairwise Tupe.le
          ↔ kind.LiveInOrder Tupe.le s ∧ ∀ u, kind.Reaches s u → kind.Agrees Tupe.le u) := by
  obtain ⟨s, files, hs, habs, hperm, -⟩ := start_abs S inputs (some outs) ls hne hy kind_strictWeak
  exact ⟨s, hs, fun fuel => merge_sorted_iff_start S inputs outs ls hs habs hperm hsorted⟩

/-- Files for which `merge` keeps the order, whatever the sort does with equal terms: documents
compare as the tuples do, and files that start with the same term start with the same document. -/
theorem merge_sorted_of_docs (hne : ∀ i, ls i ≠ [])
    (hy : ∀ i, Yields Ifile.next Ifile.t (inputs i) (ls i))
    (hsorted : ∀ i, (ls i).Pairwise Tupe.le)
    (hdocs : ∀ i j, ∀ a ∈ ls i, ∀ b ∈ ls j, a.doc ≤ b.doc ↔ Tupe.le a b)
    (hfirst : ∀ i j, ((ls i).head (hne i)).term = ((ls j).head (hne j)).term →
      ((ls i).head (hne i)).doc = ((ls j).head (hne j)).doc)
    {fuel : Nat} (hfuel : itemCount ls < fuel) :
    ∃ t, merge S fuel inputs outs = some t ∧ t.calls.Pairwise Tupe.le := by
  obtain ⟨s, files, hs, habs, hperm, hsort⟩ := start_abs S inputs (some outs) ls hne hy kind_strictWeak
  obtain ⟨t, ht, hiff⟩ := merge_sorted_iff_start S inputs outs ls hs habs hperm hsorted hfuel
  refine ⟨t, ht, hiff.mpr ⟨?_, fun u hu => ?_⟩⟩
  · rw [habs.liveInOrder_iff]
    refine List.Pairwise.imp_of_mem ?_ hsort
    intro a b ha hb hab
    obtain ⟨q, hq, rfl⟩ := List.mem_map.mp ha
    obtain ⟨q', hq', rfl⟩ := List.mem_map.mp hb
    obtain ⟨i, -, rfl⟩ := List.mem_map.mp hq
    obtain ⟨j, -, rfl⟩ := List.mem_map.mp hq'
    have hterm : ¬ ((ls j).head (hne j)).term < ((ls i).head (hne i)).term := by
      simpa [kind] using hab
    rcases UInt32.lt_or_eq_of_le (UInt32.not_lt.mp hterm) with hlt | heq
    · exact Or.inl hlt
    · exact Or.inr ⟨heq, by rw [hfirst i j heq]; exact UInt32.le_refl _⟩
  · refine agrees_of_items habs hperm (fun i j a ha b hb => ?_) hu
    rw [← hdocs i j a ha b hb]
    simp [kind]

end

/-! ## Two files that come out of order -/

/-- A freshly opened file of blocks of one document, which have payloads of at most four bytes. -/
def fileOf (bs : List (Record Ifile.headCodec)) : Ifile :=
  Ifile.new (FStream.openIn (fileBytes bs)) ⟨0, 0⟩ (Heap.zeros 3)

/-- One file has the terms 1 and 3, the other one the term 2 in between. -/
def outerBlocks : List (Record Ifile.headCodec) :=
  [Ifile.recordOf 1 70000 [70000] (by decide) (by decide),
    Ifile.recordOf 3 1 [1] (by decide) (by decide)]

def innerBlocks : List (Record Ifile.headCodec) := [Ifile.recordOf 2 7 [7] (by decide) (by decide)]

/-- The two files. -/
def crossFiles (i : Fin 2) : Ifile :=
  if i.val = 0 then fileOf outerBlocks else fileOf innerBlocks

/-- What they deliver. -/
def crossLists (i : Fin 2) : List Tupe :=
  if i.val = 0 then [⟨1, 70000⟩, ⟨3, 1⟩] else [⟨2, 7⟩]

theorem crossLists_ne (i : Fin 2) : crossLists i ≠ [] := by
  fin_cases i <;> decide

theorem crossFiles_yields (i : Fin 2) :
    Yields Ifile.next Ifile.t (crossFiles i) (crossLists i) := by
  have houter : Aligned 3 [[70000], [1]] :=
    ⟨by decide, by decide, by decide, by decide, by decide, by decide, Or.inl (by decide)⟩
  have hinner : Aligned 3 [[7]] := ⟨by decide, by decide, by decide, Or.inl (by decide)⟩
  fin_cases i
  · exact Ifile.yields_next_new outerBlocks _ _ houter (by decide)
  · exact Ifile.yields_next_new innerBlocks _ _ hinner (by decide)

theorem crossLists_sorted (i : Fin 2) : (crossLists i).Pairwise Tupe.le := by
  fin_cases i <;> decide

/-- The sort leaves the two files in the order of their first terms. -/
theorem crossLists_sort {files : List (Fin 2)} (hperm : files.Perm (List.finRange 2))
    (hsort : (queuesOf crossLists crossLists_ne files).InOrder
      (fun a b => kind.sortLt b a = false)) : files = [0, 1] := by
  obtain ⟨a, b, rfl⟩ := List.length_eq_two.mp hperm.length_eq
  have hab : a ≠ b := by
    have := hperm.nodup_iff.mpr (List.nodup_finRange 2)
    simpa using this
  have hswap : ¬ List.Pairwise (fun a b : Tupe => kind.sortLt b a = false)
      [⟨2, 7⟩, ⟨1, 70000⟩] := by decide
  fin_cases a <;> fin_cases b
  · exact absurd rfl hab
  · rfl
  · exact absurd hsort hswap
  · exact absurd rfl hab

/-- For these two files the order depends on the searches. -/
theorem merge_sorted_iff_cross :
    (∀ i, (crossLists i).Pairwise Tupe.le)
      ∧ ∃ s, kind.start StdSort.mergeSort crossFiles (some (fileOf [])) = some s
        ∧ ∀ fuel, itemCount crossLists < fuel →
          ∃ t, merge StdSort.mergeSort fuel crossFiles (fileOf []) = some t
            ∧ (t.calls.Pairwise Tupe.le
              ↔ kind.LiveInOrder Tupe.le s ∧ ∀ u, kind.Reaches s u → kind.Agrees Tupe.le u) :=
  ⟨crossLists_sorted,
    merge_sorted_iff StdSort.mergeSort crossFiles (fileOf []) crossLists crossLists_ne
      crossFiles_yields crossLists_sorted⟩

/-- Putting the first file back, the search finds the document 1 before the document 7. -/
theorem cross_not_agrees {outs : Ifile} {s : Sources 2 Ifile Tupe (Option Ifile)}
    (h : Abs kind (some outs) s (queuesOf crossLists crossLists_ne [0, 1]) []) :
    ¬ kind.Agrees Tupe.le s := by
  intro hagree
  obtain ⟨m, c, ps, -, -, -, -, hf, hcmp⟩ := search_spec h
  have h1 : 1 ∈ ps := by
    have hlo := hf.lo_le
    have hhi := hf.le_hi
    rcases Nat.lt_or_ge (c + 1) 2 with hc | hc
    · have hc0 : c = 0 := by omega
      subst hc0
      exact (hf.above hc).1
    · have hc1 : c = 1 := by simp at hhi; omega
      subst hc1
      exact (hf.below (by omega)).1
  have hpair : ((⟨3, 1⟩ : Tupe), (⟨2, 7⟩ : Tupe)) ∈ kind.comparisons s := by
    rw [hcmp]
    exact List.mem_filterMap.mpr ⟨1, h1, rfl⟩
  exact absurd (hagree _ hpair) (by decide)

/-- **The order is not kept**: two fresh files, each in order, of which `merge` writes the term 3
before the term 2, whatever the sort does with equal terms. -/
theorem merge_not_sorted :
    (∀ i, crossLists i ≠ [])
      ∧ (∀ i, Yields Ifile.next Ifile.t (crossFiles i) (crossLists i))
      ∧ (∀ i, (crossLists i).Pairwise Tupe.le)
      ∧ ∀ (S : StdSort) (outs : Ifile) (fuel : Nat), itemCount crossLists < fuel →
        ∃ t, merge S fuel crossFiles outs = some t ∧ ¬ t.calls.Pairwise Tupe.le := by
  refine ⟨crossLists_ne, crossFiles_yields, crossLists_sorted, fun S outs fuel hfuel => ?_⟩
  obtain ⟨s, files, hs, habs, hperm, hsort⟩ :=
    start_abs S crossFiles (some outs) crossLists crossLists_ne crossFiles_yields kind_strictWeak
  obtain ⟨t, ht, hiff⟩ := merge_sorted_iff_start S crossFiles outs crossLists hs habs hperm
    crossLists_sorted hfuel
  refine ⟨t, ht, fun hp => ?_⟩
  rw [crossLists_sort hperm hsort] at habs
  exact cross_not_agrees habs ((hiff.mp hp).2 s Relation.ReflTransGen.refl)

end Merge

end CSearch.Tool
