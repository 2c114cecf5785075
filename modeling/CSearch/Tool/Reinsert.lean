import CSearch.Tool.Dsort
import CSearch.Tool.Merge

set_option autoImplicit false

/-! # Putting a file back

The step that `merge` and `dsort` share: the file at the front of the array has got a new item, the
live files behind it are in order, and the file is moved to its place among them. The search goes by
one key, the document of a tuple in `merge` and the id of a document in `dsort`. `reinserts` says
what the search compares and where the file ends up.
-/

namespace CSearch.Tool

section

variable {σ τ ω : Type}

/-- The key of the item that a file shows. -/
def keyOf {n : Nat} (K : Kind σ τ ω) (key : τ → Nat) (s : Sources n σ τ ω) (f : Fin n) : Nat :=
  key (K.item (s.mem f))

/-- **The first file is put in its place.** There are two live files or more, and those behind the
first one are in the order of the key. Then the search returns; it compares the first file with live
files behind it only; and afterwards the live part of the array is a permutation of what it was, in
the order of the key, with the file right before the first other file that has a key at least as
large, and the other files in the order they had. -/
def Reinserts (K : Kind σ τ ω) (key : τ → Nat) : Prop :=
  ∀ (n : Nat) (s : Sources n σ τ ω) (f : Fin n) (others dead : List (Fin n)),
    s.files = f :: (others ++ dead) → s.nfiles = others.length + 1 → others ≠ [] →
    (others.map (keyOf K key s)).Pairwise (· ≤ ·) →
    ∃ (ps : List Nat) (live : List (Fin n)), K.reinsert s = some (ps, live ++ dead)
      ∧ (∀ p ∈ ps, 1 ≤ p ∧ p < s.nfiles)
      ∧ live.Perm (f :: others)
      ∧ (live.map (keyOf K key s)).Pairwise (· ≤ ·)
      ∧ live = others.takeWhile (fun g => decide (keyOf K key s g < keyOf K key s f))
        ++ f :: others.dropWhile (fun g => decide (keyOf K key s g < keyOf K key s f))

/-- A search that compares keys puts the file in its place. -/
theorem reinserts_of_key {K : Kind σ τ ω} {key : τ → Nat}
    (hle : ∀ a b, K.searchLe a b = decide (key a ≤ key b)) : Reinserts K key := by
  intro n s f others dead hfiles hn _ hsorted
  obtain ⟨c, ps, hsearch, hf⟩ := search_of_files (K := K) hfiles hn
  have hc : c ≤ others.length := by
    have := hf.le_hi
    omega
  -- the search stops behind the files with a smaller key
  have hplace : ∀ p g, others[p]? = some g → (keyOf K key s g < keyOf K key s f ↔ p < c) := by
    intro p g hg
    have hitem : (others.map (fun g => K.item (s.mem g)))[p]? = some (K.item (s.mem g)) := by
      rw [List.getElem?_map, hg, Option.map_some]
    have hitems : (others.map (fun g => K.item (s.mem g))).Pairwise (fun a b => key a ≤ key b) := by
      rw [List.pairwise_map] at hsorted ⊢
      exact hsorted
    rw [← List.length_map (fun g => K.item (s.mem g))] at hf
    exact hf.lt_iff hle hitems hitem
  have hmove : moveFront s.files f c = some (others.insertIdx c f ++ dead) := by
    rw [hfiles, moveFront_cons _ _ _ (by rw [List.length_append]; omega),
      insertIdx_append_left _ _ _ _ hc]
  refine ⟨ps, others.insertIdx c f, ?_, ?_, List.perm_insertIdx f others hc, ?_, ?_⟩
  · rw [Kind.reinsert, hfiles, List.getElem?_cons_zero, Option.bind_some, hsearch,
      Option.bind_some, ← hfiles, Nat.add_sub_cancel, hmove, Option.map_some]
  · rw [hn]
    exact hf.mem
  · rw [List.pairwise_map, pairwise_insertIdx others f c hc]
    refine ⟨List.pairwise_map.mp hsorted, fun p g hg => ?_⟩
    have := hplace p g hg
    exact ⟨fun hp => by omega, fun hp => by omega⟩
  · apply insertIdx_eq_takeWhile f hc
    intro p g hg
    rw [decide_eq_true_eq]
    exact hplace p g hg

end

/-- **Re-insertion** in `merge` goes by the document, in `dsort` by the id, and is right in both. -/
theorem reinserts : Reinserts Merge.kind (fun t => t.doc.toNat)
    ∧ Reinserts Dsort.kind (fun d => d.id.toNat) := by
  refine ⟨reinserts_of_key (fun a b => ?_), reinserts_of_key (fun a b => ?_)⟩
  · rfl
  · rfl

/-- Four files in front of `merge`, with the documents 5, 3, 5 and 8. -/
def tiedFiles : Sources 4 Ifile Tupe (Option Ifile) :=
  Sources.init (fun i => Ifile.new (FStream.openIn []) ⟨1, [5, 3, 5, 8].getD i.val 0⟩ (Heap.zeros 0))
    none

/-- The first one goes between the smaller and the equal one. -/
theorem reinserts_tiedFiles :
    ∃ ps, Merge.kind.reinsert tiedFiles = some (ps, [1, 0, 2, 3]) := by
  obtain ⟨ps, live, h, -, -, -, hlive⟩ := reinserts.1 4 tiedFiles 0 [1, 2, 3] [] rfl rfl (by simp)
    (by decide)
  have hplace : live = [1, 0, 2, 3] := by
    rw [hlive]
    decide
  exact ⟨ps, by rw [h, hplace, List.append_nil]⟩

end CSearch.Tool
