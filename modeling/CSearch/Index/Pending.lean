import CSearch.Index.Writer

set_option autoImplicit false

/-! # What a writer has pending

Whether something is left to be handed over at the end depends on everything that was written. This
is settled here for a writer without renaming. While a group is under construction its header keeps
the term of the tuple that opened it. A tuple of that term makes the group longer; a tuple of
another term takes its place as the only document of the group. So the group is full, and nothing is
pending, as soon as enough tuples of the term of the first one have come in a row (`EndsFull`), and
then everything starts anew. `run_docs_nil_iff` says which tuples leave nothing pending.
-/

namespace CSearch.Index.Writer

/-- A first tuple, any others, and at the end `cap - 1` tuples with the term of the first one. -/
def EndsFull (cap : Nat) (ts : List Tupe) : Prop :=
  ∃ t pre post, ts = t :: (pre ++ post) ∧ post.length + 1 = cap ∧ ∀ u ∈ post, u.term = t.term

/-- Tuples that open a group and fill it with the last one of them. -/
def FillsGroup (cap : Nat) (ts : List Tupe) : Prop := FirstWith (EndsFull cap) ts

theorem EndsFull.le_length {cap : Nat} {ts : List Tupe} (h : EndsFull cap ts) :
    cap ≤ ts.length := by
  obtain ⟨t, pre, post, rfl, hlen, -⟩ := h
  rw [List.length_cons, List.length_append]
  omega

/-- As many equal tuples as fill a group. -/
theorem fillsGroup_replicate {cap : Nat} (hcap : 0 < cap) (t : Tupe) :
    FillsGroup cap (List.replicate cap t) := by
  obtain ⟨n, rfl⟩ : ∃ n, cap = n + 1 := ⟨cap - 1, by omega⟩
  refine ⟨⟨t, [], List.replicate n t, rfl, ?_, ?_⟩, ?_⟩
  · rw [List.length_replicate]
  · intro u hu
    rw [List.eq_of_mem_replicate hu]
  · intro p hp hP
    apply hp.eq_of_length_le
    rw [List.length_replicate]
    exact hP.le_length

/-- The tuples at the end that have the term of the first one. -/
def sameTerm (t : Tupe) (ts : List Tupe) : Nat := trailing (fun u => decide (u.term = t.term)) ts

theorem sameTerm_concat_of_eq {t u : Tupe} (h : u.term = t.term) (ts : List Tupe) :
    sameTerm t (ts ++ [u]) = sameTerm t ts + 1 := by
  apply trailing_concat_of_pos
  exact decide_eq_true h

theorem sameTerm_concat_of_ne {t u : Tupe} (h : u.term ≠ t.term) (ts : List Tupe) :
    sameTerm t (ts ++ [u]) = 0 := by
  apply trailing_concat_of_neg
  exact decide_eq_false h

theorem endsFull_cons_iff {cap : Nat} (hcap : 0 < cap) (t : Tupe) (ts : List Tupe) :
    EndsFull cap (t :: ts) ↔ cap ≤ sameTerm t ts + 1 := by
  have hle : cap ≤ sameTerm t ts + 1 ↔ cap - 1 ≤ sameTerm t ts := by omega
  rw [hle, sameTerm, le_trailing_iff]
  constructor
  · rintro ⟨u, pre, post, hts, hlen, hall⟩
    obtain ⟨rfl, rfl⟩ := List.cons.inj hts
    exact ⟨pre, post, rfl, by omega, fun x hx => decide_eq_true (hall x hx)⟩
  · rintro ⟨pre, post, rfl, hlen, hall⟩
    exact ⟨t, pre, post, rfl, by omega, fun x hx => of_decide_eq_true (hall x hx)⟩

/-- A group under construction: it has the term of the tuple `t` that opened it, and a document for
every tuple of that term since the last one of another term. -/
structure Since (cap : Nat) (t : Tupe) (ts : List Tupe) (s : Writer) : Prop where
  term : s.cur.term = t.term
  size : s.cur.docs.length = sameTerm t ts + 1
  le : s.cur.docs.length ≤ cap

/-- A group that is opened. -/
theorem since_start {cap : Nat} (hcap : 0 < cap) {s : Writer} (hs : s.cur.docs = []) (t : Tupe) :
    Since cap t [] (((s.start t).change false t).push t.doc) := by
  have hstart : (s.start t).change false t = ⟨⟨t.term, t.doc, []⟩, s.out⟩ := by
    rw [start_of_nil hs]
    exact change_of_eq false rfl
  rw [hstart]
  exact ⟨rfl, rfl, hcap⟩

/-- A group that is not full goes on with the next tuple. -/
theorem Since.step {cap : Nat} {t : Tupe} {ts : List Tupe} {s : Writer} (h : Since cap t ts s)
    (hlt : s.cur.docs.length < cap) (u : Tupe) :
    Since cap t (ts ++ [u]) (((s.start u).change false u).push u.doc) := by
  have hne : s.cur.docs ≠ [] := fun h' => by
    have hsize := h.size
    rw [h', List.length_nil] at hsize
    omega
  rw [start_of_ne hne]
  by_cases hu : u.term = t.term
  · have hlen : (s.push u.doc).cur.docs.length = s.cur.docs.length + 1 := List.length_append
    rw [change_of_eq false (hu.trans h.term.symm)]
    refine ⟨h.term, ?_, ?_⟩
    · rw [hlen, h.size, sameTerm_concat_of_eq hu]
    · rw [hlen]
      exact hlt
  · have hchange : s.change false u = s.emit := by
      rw [change, if_pos (fun h' => hu (h'.trans h.term))]
      rfl
    have hlen : (s.emit.push u.doc).cur.docs.length = 1 := by
      show (s.emit.cur.docs ++ [u.doc]).length = 1
      rw [emit_docs]
      rfl
    rw [hchange]
    refine ⟨(emit_term s).trans h.term, ?_, ?_⟩
    · rw [hlen, sameTerm_concat_of_ne hu]
    · rw [hlen]
      omega

/-- Tuples that open a group and do not fill it before the last one of them. -/
theorem run_since {cap : Nat} (hcap : 0 < cap) {s : Writer} (hs : s.cur.docs = []) (t : Tupe)
    (ts : List Tupe) (hfirst : ∀ p, p <+: t :: ts → EndsFull cap p → p = t :: ts) :
    ∃ w, run cap false s (t :: ts) = w.close cap ∧ Since cap t ts w := by
  induction ts using List.reverseRecOn with
  | nil => exact ⟨_, rfl, since_start hcap hs t⟩
  | append_singleton ts u ih =>
      have hpre : t :: ts <+: t :: (ts ++ [u]) := ⟨[u], rfl⟩
      have hne : t :: ts ≠ t :: (ts ++ [u]) := by simp
      obtain ⟨w, hw, hsince⟩ := ih (fun p hp hP =>
        absurd (hfirst p (hp.trans hpre) hP) (fun heq => by
          have := hp.length_le
          rw [heq] at this
          simp at this))
      -- the group is not full yet, so it has not been handed over
      have hlt : w.cur.docs.length < cap := by
        by_contra hge
        refine hne (hfirst _ hpre ((endsFull_cons_iff hcap t ts).mpr ?_))
        rw [← hsince.size]
        omega
      have hopen : w.close cap = w := by rw [close, if_neg (by omega)]
      refine ⟨_, ?_, hsince.step hlt u⟩
      rw [← List.cons_append, run_concat, hw, hopen]
      rfl

/-- **When nothing is pending**: the tuples consist of pieces each of which has filled a group. -/
theorem run_docs_nil_iff {cap : Nat} (hcap : 0 < cap) (ts : List Tupe) :
    (run cap false new ts).cur.docs = []
      ↔ ∃ ps : List (List Tupe), (∀ p ∈ ps, FillsGroup cap p) ∧ ps.flatten = ts := by
  refine foldl_restart_iff (E := fun s : Writer => s.cur.docs = []) ?_ ?_ rfl ts
  · intro h
    have := h.le_length
    rw [List.length_nil] at this
    omega
  · intro s hs l hl hfirst
    obtain ⟨t, l, rfl⟩ := List.exists_cons_of_ne_nil hl
    obtain ⟨w, hw, hsince⟩ := run_since hcap hs t l hfirst
    have hle := hsince.le
    show (run cap false s (t :: l)).cur.docs = [] ↔ _
    rw [hw, endsFull_cons_iff hcap, ← hsince.size, close]
    by_cases hfull : w.cur.docs.length = cap
    · rw [if_pos hfull]
      exact iff_of_true (emit_docs w) hfull.ge
    · rw [if_neg hfull]
      refine iff_of_false (fun h' => ?_) (by omega)
      have hsize := hsince.size
      rw [h', List.length_nil] at hsize
      omega

end CSearch.Index.Writer
