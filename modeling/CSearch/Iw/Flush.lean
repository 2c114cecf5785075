import CSearch.Iw.Writer

set_option autoImplicit false

/-! # The flushes of `index_writer_t`

`index_writer_write` runs a flush when the pair starts a new term and when the buffer is full;
`flushAt` is the writer as it enters the flush. Whatever comes of the flush, the buffer is empty
afterwards, so that what is in it depends only on the pairs accepted so far.

Three things should hold of these flushes: the buffer is not empty (`FlushesNonempty`), it has
documents of one term in ascending order (`FlushesHomogeneous`), and a failure is reported and
loses nothing (`ReportsFailure`). Each of them fails for some calls, and there is a theorem for each
that says for which: `flushesNonempty_iff`, `flushesHomogeneous_iff` and `reportsFailure_iff`.
-/

namespace CSearch.Iw

/-! ## Entering a flush -/

instance (w : IndexWriter) (pair : Dt) : Decidable (w.Rejects pair) :=
  inferInstanceAs (Decidable
    (pair.term < w.lastPair.term ∨ pair.term = w.lastPair.term ∧ pair.doc ≤ w.lastPair.doc))

/-- The writer as `index_writer_write` enters `index_writer_flush`, if it does. -/
def IndexWriter.flushAt (w : IndexWriter) (pair : Dt) : Option IndexWriter :=
  if w.Rejects pair then none
  else if w.lastPair.term ≠ pair.term ∧ w.lastPair.term ≠ 0 then some w
  else if w.maxy ≤ w.data.length + 1 then some (w.pushed pair)
  else none

section

variable {V : Vbyte} {w w' v v' : IndexWriter} {pair : Dt} {e : Env} {rc : Int32}

theorem flushAt_of_new_term (h : ¬ w.Rejects pair) (h1 : pair.term ≠ w.lastPair.term)
    (h2 : w.lastPair.term ≠ 0) : w.flushAt pair = some w := by
  rw [IndexWriter.flushAt, if_neg h, if_pos ⟨Ne.symm h1, h2⟩]

theorem flushAt_of_old_term (h : ¬ w.Rejects pair)
    (ht : pair.term = w.lastPair.term ∨ w.lastPair.term = 0) :
    w.flushAt pair = if w.maxy ≤ w.data.length + 1 then some (w.pushed pair) else none := by
  have hterm : ¬ (w.lastPair.term ≠ pair.term ∧ w.lastPair.term ≠ 0) := by
    rintro ⟨h1, h2⟩
    exact ht.elim (fun ht => h1 ht.symm) h2
  rw [IndexWriter.flushAt, if_neg h, if_neg hterm]

/-- The two ways into a flush. -/
theorem flushAt_eq_some (h : w.flushAt pair = some v) :
    ¬ w.Rejects pair
      ∧ ((pair.term ≠ w.lastPair.term ∧ w.lastPair.term ≠ 0) ∧ v = w
        ∨ (pair.term = w.lastPair.term ∨ w.lastPair.term = 0) ∧ w.maxy ≤ w.data.length + 1
          ∧ v = w.pushed pair) := by
  by_cases hr : w.Rejects pair
  · rw [IndexWriter.flushAt, if_pos hr] at h
    exact absurd h (by simp)
  · refine ⟨hr, ?_⟩
    by_cases ht : pair.term = w.lastPair.term ∨ w.lastPair.term = 0
    · rw [flushAt_of_old_term hr ht] at h
      split at h
      · rename_i hfull
        rw [Option.some.injEq] at h
        exact Or.inr ⟨ht, hfull, h.symm⟩
      · exact absurd h (by simp)
    · rw [not_or] at ht
      rw [flushAt_of_new_term hr ht.1 ht.2, Option.some.injEq] at h
      exact Or.inl ⟨ht, h.symm⟩

/-- A flush only adds to the log. -/
theorem flush_frame (h : v.flush V e = some (rc, v')) :
    v'.lastPair = v.lastPair ∧ v'.maxy = v.maxy ∧ v'.data = v.data := by
  rw [IndexWriter.flush] at h
  split at h
  · rw [Option.some.injEq, Prod.mk.injEq] at h
    rw [← h.2]
    exact ⟨rfl, rfl, rfl⟩
  · split at h
    · exact absurd h (by simp)
    · rename_i d ds hd
      rw [Option.some.injEq, Prod.mk.injEq] at h
      rw [← h.2]
      exact ⟨rfl, rfl, rfl⟩

theorem exists_flush (hne : v.data ≠ []) (V : Vbyte) (e : Env) :
    ∃ rc v', v.flush V e = some (rc, v') := by
  obtain ⟨d, ds, hd⟩ := List.exists_cons_of_ne_nil hne
  rw [IndexWriter.flush]
  split
  · exact ⟨_, _, rfl⟩
  · rw [hd]
    exact ⟨_, _, rfl⟩

/-- A call that enters a flush does what the flush does, and then empties the buffer. The result of
the flush is returned only if the term is an old one. -/
theorem write_of_flushAt (h : w.flushAt pair = some v) (V : Vbyte) (e : Env) :
    w.write V pair e = (v.flush V e).map fun r =>
      (if pair.term ≠ w.lastPair.term ∧ w.lastPair.term ≠ 0 then 0 else r.1,
        { r.2 with data := [], lastPair := pair }) := by
  obtain ⟨hr, ⟨hnew, rfl⟩ | ⟨hold, hfull, rfl⟩⟩ := flushAt_eq_some h
  · rw [write_of_new_term hr hnew.1 hnew.2]
    simp only [if_pos hnew]
  · have hnot : ¬ (pair.term ≠ w.lastPair.term ∧ w.lastPair.term ≠ 0) :=
      fun hnew => hold.elim hnew.1 hnew.2
    rw [write_of_old_term hr hold, if_pos hfull]
    simp only [if_neg hnot]
    cases hf : (w.pushed pair).flush V e with
    | none => rfl
    | some r =>
        obtain ⟨rc, v'⟩ := r
        have hlast : v'.lastPair = pair := (flush_frame hf).1
        simp only [Option.map_some, hlast]

theorem write_of_flushAt_none (hr : ¬ w.Rejects pair) (h : w.flushAt pair = none) (V : Vbyte)
    (e : Env) : w.write V pair e = some (0, w.pushed pair) := by
  by_cases ht : pair.term = w.lastPair.term ∨ w.lastPair.term = 0
  · rw [flushAt_of_old_term hr ht] at h
    rw [write_of_old_term hr ht]
    split at h
    · exact absurd h (by simp)
    · rename_i hroom
      rw [if_neg hroom]
  · rw [not_or] at ht
    rw [flushAt_of_new_term hr ht.1 ht.2] at h
    exact absurd h (by simp)

/-- **The writer after an accepted pair.** With a flush the buffer is empty, whatever came of it,
and without one it has one document more. -/
theorem write_spec (hr : ¬ w.Rejects pair) (hw : w.write V pair e = some (rc, w')) :
    w'.lastPair = pair ∧ w'.maxy = w.maxy
      ∧ w'.data = if (w.flushAt pair).isSome then [] else w.data ++ [pair.doc] := by
  cases h : w.flushAt pair with
  | none =>
      rw [write_of_flushAt_none hr h, Option.some.injEq, Prod.mk.injEq] at hw
      rw [← hw.2]
      exact ⟨rfl, rfl, rfl⟩
  | some v =>
      rw [write_of_flushAt h, Option.map_eq_some_iff] at hw
      obtain ⟨⟨rc', v'⟩, hf, hw⟩ := hw
      have hv : v.maxy = w.maxy := by
        obtain ⟨-, ⟨-, rfl⟩ | ⟨-, -, rfl⟩⟩ := flushAt_eq_some h
        · rfl
        · rfl
      rw [Prod.mk.injEq] at hw
      rw [← hw.2]
      exact ⟨rfl, (flush_frame hf).2.1.trans hv, rfl⟩

/-- The call has a defined result unless it flushes an empty buffer. -/
theorem exists_write (hr : ¬ w.Rejects pair) (h : ∀ v, w.flushAt pair = some v → v.data ≠ [])
    (V : Vbyte) (e : Env) : ∃ rc w', w.write V pair e = some (rc, w') := by
  cases hat : w.flushAt pair with
  | none => exact ⟨_, _, write_of_flushAt_none hr hat V e⟩
  | some v =>
      obtain ⟨rc, v', hf⟩ := exists_flush (h v hat) V e
      rw [write_of_flushAt hat, hf]
      exact ⟨_, _, rfl⟩

/-! ## The pairs accepted -/

/-- The pairs that pass the check at the start of `index_writer_write`: those behind the last one
accepted. -/
def acceptedFrom : Dt → List Dt → List Dt
  | _, [] => []
  | last, p :: ps =>
      if p.term < last.term ∨ p.term = last.term ∧ p.doc ≤ last.doc then acceptedFrom last ps
      else p :: acceptedFrom p ps

/-- The pairs accepted by a new writer. -/
def accepted (ps : List Dt) : List Dt := acceptedFrom ⟨0, 0⟩ ps

theorem acceptedFrom_of_rejects (h : w.Rejects pair) (ps : List Dt) :
    acceptedFrom w.lastPair (pair :: ps) = acceptedFrom w.lastPair ps := by
  rw [IndexWriter.Rejects] at h
  rw [acceptedFrom, if_pos h]

theorem acceptedFrom_of_not_rejects (h : ¬ w.Rejects pair) (ps : List Dt) :
    acceptedFrom w.lastPair (pair :: ps) = pair :: acceptedFrom pair ps := by
  rw [IndexWriter.Rejects] at h
  rw [acceptedFrom, if_neg h]

/-- The terms go up. -/
theorem term_le_of_mem_acceptedFrom (last : Dt) (ps : List Dt) :
    ∀ q ∈ acceptedFrom last ps, last.term ≤ q.term := by
  induction ps generalizing last with
  | nil => exact fun q hq => absurd hq List.not_mem_nil
  | cons p ps ih =>
      intro q hq
      rw [acceptedFrom] at hq
      split at hq
      · exact ih last q hq
      · rename_i h
        have hle : last.term ≤ p.term := UInt64.not_lt.mp (fun hlt => h (Or.inl hlt))
        rcases List.mem_cons.mp hq with rfl | hq
        · exact hle
        · exact UInt64.le_trans hle (ih p q hq)

/-- Whenever a flush is entered, `P` holds of the pairs accepted so far, the new one included, and
of the writer. -/
def FlushesWith (V : Vbyte) (P : List Dt → IndexWriter → Prop) :
    IndexWriter → List Dt → List (Dt × Env) → Prop
  | _, _, [] => True
  | w, acc, (pair, e) :: calls =>
      let acc := if w.Rejects pair then acc else acc ++ [pair]
      (∀ v, w.flushAt pair = some v → P acc v)
        ∧ ∀ rc w', w.write V pair e = some (rc, w') → FlushesWith V P w' acc calls

variable {P : List Dt → IndexWriter → Prop} {acc : List Dt} {calls : List (Dt × Env)}

/-- A call whose result is known. -/
theorem forall_write_eq_some {r : Int32 × IndexWriter} {Q : IndexWriter → Prop}
    (h : w.write V pair e = some r) :
    (∀ rc w', w.write V pair e = some (rc, w') → Q w') ↔ Q r.2 := by
  constructor
  · exact fun hall => hall r.1 r.2 h
  · intro hQ rc w' hw
    rw [h, Option.some.injEq] at hw
    rw [hw] at hQ
    exact hQ

theorem flushesWith_of_rejects (h : w.Rejects pair) :
    FlushesWith V P w acc ((pair, e) :: calls) ↔ FlushesWith V P w acc calls := by
  have hnone : w.flushAt pair = none := by rw [IndexWriter.flushAt, if_pos h]
  rw [FlushesWith]
  simp only [if_pos h, forall_write_eq_some (write_of_rejects h e)]
  rw [hnone]
  exact and_iff_right (fun v hv => absurd hv (by simp))

theorem flushesWith_of_not_rejects (h : ¬ w.Rejects pair) :
    FlushesWith V P w acc ((pair, e) :: calls)
      ↔ (∀ v, w.flushAt pair = some v → P (acc ++ [pair]) v)
        ∧ ∀ rc w', w.write V pair e = some (rc, w') →
          FlushesWith V P w' (acc ++ [pair]) calls := by
  rw [FlushesWith]
  simp only [if_neg h]

theorem flushesWith_of_flushAt_none (hr : ¬ w.Rejects pair) (h : w.flushAt pair = none) :
    FlushesWith V P w acc ((pair, e) :: calls)
      ↔ FlushesWith V P (w.pushed pair) (acc ++ [pair]) calls := by
  rw [flushesWith_of_not_rejects hr, forall_write_eq_some (write_of_flushAt_none hr h V e), h]
  exact and_iff_right (fun v hv => absurd hv (by simp))

theorem not_flushesWith (hr : ¬ w.Rejects pair) (h : w.flushAt pair = some v)
    (hP : ¬ P (acc ++ [pair]) v) : ¬ FlushesWith V P w acc ((pair, e) :: calls) :=
  fun hall => hP (((flushesWith_of_not_rejects hr).mp hall).1 v h)

/-- A call that does not flush an empty buffer; the calls behind it are judged from the state it
leaves. -/
theorem flushesWith_cons_iff (h : ¬ w.Rejects pair)
    (hne : ∀ v, w.flushAt pair = some v → v.data ≠ []) {R : Prop}
    (hrest : ∀ rc w', w.write V pair e = some (rc, w') →
      (FlushesWith V P w' (acc ++ [pair]) calls ↔ R)) :
    FlushesWith V P w acc ((pair, e) :: calls)
      ↔ (∀ v, w.flushAt pair = some v → P (acc ++ [pair]) v) ∧ R := by
  obtain ⟨rc, w', hw⟩ := exists_write h hne V e
  rw [flushesWith_of_not_rejects h]
  apply and_congr_right
  intro _
  exact ⟨fun hall => (hrest rc w' hw).mp (hall rc w' hw),
    fun hR rc w' hw => (hrest rc w' hw).mpr hR⟩

/-! ## Nothing to flush

The first pair of a new term is not stored. A term with no other pair, or with as many more as fill
the buffer, leaves the buffer empty for the flush at the next term. -/

/-- The number of pairs stored since the last change from a term other than `0`: all of them if
there was none, and all of the last term but the first one otherwise. -/
def stored (acc : List Dt) : Nat :=
  if ∀ p ∈ acc.take (acc.length - lastRun Dt.term acc), p.term = 0 then acc.length
  else lastRun Dt.term acc - 1

theorem stored_of_zero (h : ∀ p ∈ acc, p.term = 0) : stored acc = acc.length :=
  if_pos (fun p hp => h p (List.mem_of_mem_take hp))

theorem stored_concat_of_zero (h : ∀ p ∈ acc, p.term = 0) (pair : Dt) :
    stored (acc ++ [pair]) = acc.length + 1 := by
  have hpos := lastRun_pos Dt.term
    (List.append_ne_nil_of_right_ne_nil acc (List.cons_ne_nil pair []))
  have hle : (acc ++ [pair]).length - lastRun Dt.term (acc ++ [pair]) ≤ acc.length := by
    rw [List.length_append, List.length_singleton]
    omega
  rw [stored, List.take_append_of_le_length hle,
    if_pos (fun p hp => h p (List.mem_of_mem_take hp)), List.length_append, List.length_singleton]

theorem stored_concat_of_eq (h : acc.getLast?.map Dt.term = some pair.term) :
    stored (acc ++ [pair]) = stored acc + 1 := by
  have hne : acc ≠ [] := by
    rintro rfl
    exact absurd h (by simp)
  have hpos := lastRun_pos Dt.term hne
  have htake : (acc ++ [pair]).take (acc.length + 1 - (lastRun Dt.term acc + 1))
      = acc.take (acc.length - lastRun Dt.term acc) := by
    rw [Nat.add_sub_add_right, List.take_append_of_le_length (Nat.sub_le _ _)]
  rw [stored, lastRun_concat_of_eq h, List.length_append, List.length_singleton, htake, stored]
  split
  · rfl
  · omega

theorem stored_concat_of_ne (hz : ∃ p ∈ acc, p.term ≠ 0)
    (h : acc.getLast?.map Dt.term ≠ some pair.term) : stored (acc ++ [pair]) = 0 := by
  have htake : (acc ++ [pair]).take ((acc ++ [pair]).length - 1) = acc := by
    rw [List.length_append, List.length_singleton, Nat.add_sub_cancel, List.take_left]
  rw [stored, lastRun_concat_of_ne h, htake, if_neg]
  intro hall
  obtain ⟨p, hp, hne⟩ := hz
  exact hne (hall p hp)

/-- What the writer has after a sequence of accepted pairs. -/
structure Buffered (w : IndexWriter) (acc : List Dt) : Prop where
  last : w.lastPair = acc.getLast?.getD ⟨0, 0⟩
  terms : ∀ p ∈ acc, p.term ≤ w.lastPair.term
  data : w.data.length = stored acc % w.maxy

theorem buffered_init (maxy : Nat) : Buffered (IndexWriter.init maxy) [] := by
  refine ⟨rfl, fun p hp => absurd hp List.not_mem_nil, ?_⟩
  rw [stored_of_zero (fun p hp => absurd hp List.not_mem_nil)]
  exact (Nat.zero_mod maxy).symm

/-- A pair of an old term is stored. -/
theorem Buffered.stored_old (h : Buffered w acc)
    (ht : pair.term = w.lastPair.term ∨ w.lastPair.term = 0) :
    stored (acc ++ [pair]) = stored acc + 1 := by
  by_cases h0 : w.lastPair.term = 0
  · have hz : ∀ p ∈ acc, p.term = 0 := fun p hp =>
      UInt64.le_zero_iff.mp (h0 ▸ h.terms p hp)
    rw [stored_concat_of_zero hz, stored_of_zero hz]
  · apply stored_concat_of_eq
    rw [ht.resolve_right h0, h.last]
    cases hl : acc.getLast? with
    | none =>
        rw [h.last, hl] at h0
        exact absurd rfl h0
    | some q => rfl

/-- The first pair of a new term is not. -/
theorem Buffered.stored_new (h : Buffered w acc) (h1 : pair.term ≠ w.lastPair.term)
    (h2 : w.lastPair.term ≠ 0) : stored (acc ++ [pair]) = 0 := by
  cases hl : acc.getLast? with
  | none =>
      rw [h.last, hl] at h2
      exact absurd rfl h2
  | some q =>
      have hq : w.lastPair = q := by rw [h.last, hl, Option.getD_some]
      refine stored_concat_of_ne ⟨q, List.mem_of_getLast? hl, hq ▸ h2⟩ ?_
      rw [hl, Option.map_some, ne_eq, Option.some.injEq, ← hq]
      exact Ne.symm h1

/-- The buffer after one more pair. -/
theorem Buffered.data_concat (hmaxy : 1 ≤ w.maxy) (h : Buffered w acc) (hr : ¬ w.Rejects pair) :
    (if (w.flushAt pair).isSome then [] else w.data ++ [pair.doc]).length
      = stored (acc ++ [pair]) % w.maxy := by
  have hd := h.data
  have hmod := Nat.mod_lt (stored acc) hmaxy
  by_cases ht : pair.term = w.lastPair.term ∨ w.lastPair.term = 0
  · rw [flushAt_of_old_term hr ht, h.stored_old ht, ← Nat.mod_add_mod]
    by_cases hfull : w.maxy ≤ w.data.length + 1
    · rw [if_pos hfull, show stored acc % w.maxy + 1 = w.maxy by omega, Nat.mod_self]
      rfl
    · rw [if_neg hfull, Nat.mod_eq_of_lt (by omega), ← hd]
      exact List.length_append
  · rw [not_or] at ht
    rw [flushAt_of_new_term hr ht.1 ht.2, h.stored_new ht.1 ht.2, Nat.zero_mod]
    rfl

/-- **One call.** -/
theorem Buffered.write (hmaxy : 1 ≤ w.maxy) (h : Buffered w acc) (hr : ¬ w.Rejects pair)
    (hw : w.write V pair e = some (rc, w')) : Buffered w' (acc ++ [pair]) := by
  obtain ⟨hlast, hm, hdata⟩ := write_spec hr hw
  have hle : w.lastPair.term ≤ pair.term := UInt64.not_lt.mp (fun hlt => hr (Or.inl hlt))
  refine ⟨?_, ?_, ?_⟩
  · rw [hlast, List.getLast?_concat]
    rfl
  · rw [hlast]
    exact forall_mem_concat.mpr
      ⟨fun p hp => UInt64.le_trans (h.terms p hp) hle, UInt64.le_refl _⟩
  · rw [hdata, hm]
    exact h.data_concat hmaxy hr

/-- Whenever a flush is entered, there is something in the buffer. -/
def FlushesNonempty (V : Vbyte) (maxy : Nat) (calls : List (Dt × Env)) : Prop :=
  FlushesWith V (fun _ v => v.data ≠ []) (IndexWriter.init maxy) [] calls

/-- At this place in the accepted pairs nothing empty is flushed: a change from a term other than
`0` finds a number of pairs stored that is not a multiple of the size of the buffer. -/
def FlushesSomething (maxy : Nat) (pre : List Dt) (p : Dt) : Prop :=
  ∀ q, pre.getLast? = some q → q.term ≠ 0 → p.term ≠ q.term → ¬ maxy ∣ stored pre

theorem Buffered.flushesSomething_iff (h : Buffered w acc) (hr : ¬ w.Rejects pair) :
    FlushesSomething w.maxy acc pair ↔ ∀ v, w.flushAt pair = some v → v.data ≠ [] := by
  have hdata : ¬ w.maxy ∣ stored acc ↔ w.data ≠ [] := by
    rw [Nat.dvd_iff_mod_eq_zero, ← h.data, List.length_eq_zero_iff]
  have hlast : FlushesSomething w.maxy acc pair
      ↔ (w.lastPair.term ≠ 0 → pair.term ≠ w.lastPair.term → w.data ≠ []) := by
    rw [FlushesSomething, hdata, h.last]
    cases acc.getLast? with
    | none => exact iff_of_true (fun q hq => absurd hq (by simp)) (fun h0 => absurd rfl h0)
    | some q => simp only [Option.some.injEq, Option.getD_some, forall_eq']
  rw [hlast]
  constructor
  · intro hkeep v hv
    obtain ⟨-, ⟨hnew, rfl⟩ | ⟨-, -, rfl⟩⟩ := flushAt_eq_some hv
    · exact hkeep hnew.2 hnew.1
    · exact List.append_ne_nil_of_right_ne_nil _ (List.cons_ne_nil _ _)
  · exact fun hall h2 h1 => hall w (flushAt_of_new_term hr h1 h2)

/-- **All calls**, from any state on. -/
theorem Buffered.flushesWith_iff (hmaxy : 1 ≤ w.maxy) (h : Buffered w acc) :
    FlushesWith V (fun _ v => v.data ≠ []) w acc calls
      ↔ AtEach (fun pre => FlushesSomething w.maxy (acc ++ pre))
        (acceptedFrom w.lastPair (calls.map Prod.fst)) := by
  induction calls generalizing w acc with
  | nil => exact iff_of_true trivial (atEach_nil _)
  | cons c calls ih =>
      obtain ⟨pair, e⟩ := c
      rw [List.map_cons]
      by_cases hr : w.Rejects pair
      · rw [flushesWith_of_rejects hr, acceptedFrom_of_rejects hr]
        exact ih hmaxy h
      · rw [acceptedFrom_of_not_rejects hr, atEach_cons, List.append_nil,
          h.flushesSomething_iff hr]
        by_cases hne : ∀ v, w.flushAt pair = some v → v.data ≠ []
        · refine flushesWith_cons_iff hr hne (fun rc w' hw => ?_)
          obtain ⟨hlast, hm, -⟩ := write_spec hr hw
          rw [ih (hm ▸ hmaxy) (h.write hmaxy hr hw), hlast, hm]
          simp only [List.append_assoc, List.singleton_append]
        · rw [flushesWith_of_not_rejects hr]
          exact iff_of_false (fun hall => hne hall.1) (fun hall => hne hall.1)

/-- **When no empty buffer is flushed**: if every change from a term other than `0` to another one
finds a number of stored pairs that is not a multiple of the size of the buffer. -/
theorem flushesNonempty_iff (V : Vbyte) (maxy : Nat) (hmaxy : 1 ≤ maxy)
    (calls : List (Dt × Env)) :
    FlushesNonempty V maxy calls
      ↔ AtEach (FlushesSomething maxy) (accepted (calls.map Prod.fst)) := by
  have h : FlushesNonempty V maxy calls
      ↔ AtEach (fun pre => FlushesSomething maxy ([] ++ pre)) (accepted (calls.map Prod.fst)) :=
    (buffered_init maxy).flushesWith_iff hmaxy
  simp only [List.nil_append] at h
  exact h

/-- Two terms with one pair each: the one flush has something. -/
theorem flushesNonempty_two :
    FlushesNonempty Vbyte.plain 9 [(⟨1, 1⟩, ⟨true, 0⟩), (⟨2, 5⟩, ⟨true, 0⟩)] :=
  (flushesNonempty_iff Vbyte.plain 9 (by decide) _).mpr (by
    refine (atEach_cons _ _ _).mpr ⟨fun q hq => absurd hq (by simp), ?_⟩
    refine (atEach_cons _ _ _).mpr ⟨fun q _ _ _ => by decide, atEach_nil _⟩)

/-- With a third term the next flush has nothing. -/
theorem not_flushesNonempty_three :
    ¬ FlushesNonempty Vbyte.plain 9
        [(⟨1, 1⟩, ⟨true, 0⟩), (⟨2, 5⟩, ⟨true, 0⟩), (⟨3, 1⟩, ⟨true, 0⟩)] := by
  rintro ⟨-, h1⟩
  obtain ⟨-, h2⟩ := h1 0 ⟨⟨1, 1⟩, 9, [1], []⟩ rfl
  obtain ⟨h3, -⟩ := h2 0 ⟨⟨2, 5⟩, 9, [], [⟨⟨1, 1⟩, [], 0, 0⟩]⟩ rfl
  exact h3 _ rfl rfl

/-! ## Documents of two terms

The check for a new term takes the term `0` for no term at all. So documents that are left in the
buffer from the term `0` stay there when the next term comes, and are flushed under that one. -/

/-- The buffer has documents in ascending order, all accepted with the term that the flush
reports. -/
def Homogeneous (acc : List Dt) (v : IndexWriter) : Prop :=
  v.data ≠ [] → v.data.Pairwise (· < ·) ∧ ∀ d ∈ v.data, Dt.mk v.lastPair.term d ∈ acc

/-- All in the buffer is as it should be. -/
structure OneTerm (w : IndexWriter) (acc : List Dt) : Prop where
  asc : w.Ascending
  mem : ∀ d ∈ w.data, Dt.mk w.lastPair.term d ∈ acc

theorem OneTerm.homogeneous (h : OneTerm w acc) (pair : Dt) : Homogeneous (acc ++ [pair]) w :=
  fun _ => ⟨h.asc.data, fun d hd => List.mem_append_left _ (h.mem d hd)⟩

theorem oneTerm_of_nil (h : w.data = []) (acc : List Dt) : OneTerm w acc := by
  refine ⟨⟨?_, fun d hd => ?_⟩, fun d hd => ?_⟩
  · rw [h]
    exact List.Pairwise.nil
  · rw [h] at hd
    exact absurd hd List.not_mem_nil
  · rw [h] at hd
    exact absurd hd List.not_mem_nil

theorem OneTerm.pushed (h : OneTerm w acc) (hr : ¬ w.Rejects pair)
    (ht : pair.term = w.lastPair.term ∨ w.data = []) : OneTerm (w.pushed pair) (acc ++ [pair]) := by
  refine ⟨pushed_ascending h.asc hr ht, fun d hd => ?_⟩
  rcases List.mem_append.mp hd with hd | hd
  · rcases ht with ht | ht
    · show Dt.mk pair.term d ∈ acc ++ [pair]
      rw [ht]
      exact List.mem_append_left _ (h.mem d hd)
    · rw [ht] at hd
      exact absurd hd List.not_mem_nil
  · rw [List.mem_singleton.mp hd]
    exact List.mem_append_right _ (List.mem_singleton.mpr rfl)

/-- **A call that does not mix** flushes nothing mixed, and leaves nothing mixed. -/
theorem OneTerm.write (h : OneTerm w acc) (hr : ¬ w.Rejects pair)
    (ht : pair.term = w.lastPair.term ∨ w.lastPair.term ≠ 0 ∨ w.data = []) :
    (∀ v, w.flushAt pair = some v → Homogeneous (acc ++ [pair]) v)
      ∧ ∀ rc w', w.write V pair e = some (rc, w') → OneTerm w' (acc ++ [pair]) := by
  -- a pair that is pushed has the old term, or comes first
  have hpush : (pair.term = w.lastPair.term ∨ w.lastPair.term = 0) →
      pair.term = w.lastPair.term ∨ w.data = [] := by
    rintro (hold | h0)
    · exact Or.inl hold
    · exact ht.imp_right (fun h' => h'.resolve_left (not_not.mpr h0))
  constructor
  · intro v hv
    obtain ⟨-, ⟨-, rfl⟩ | ⟨hold, -, rfl⟩⟩ := flushAt_eq_some hv
    · exact h.homogeneous pair
    · have hp := h.pushed hr (hpush hold)
      exact fun _ => ⟨hp.asc.data, hp.mem⟩
  · intro rc w' hw
    cases hat : w.flushAt pair with
    | some v =>
        have hdata := (write_spec hr hw).2.2
        rw [hat] at hdata
        exact oneTerm_of_nil hdata _
    | none =>
        rw [write_of_flushAt_none hr hat, Option.some.injEq, Prod.mk.injEq] at hw
        rw [← hw.2]
        apply h.pushed hr (hpush _)
        by_contra hnew
        rw [not_or] at hnew
        rw [flushAt_of_new_term hr hnew.1 hnew.2] at hat
        exact absurd hat (by simp)

/-- Behind the first term other than `0`, nothing more can be mixed. -/
theorem OneTerm.flushesWith (h : OneTerm w acc) (h0 : w.lastPair.term ≠ 0) :
    FlushesWith V Homogeneous w acc calls := by
  induction calls generalizing w acc with
  | nil => trivial
  | cons c calls ih =>
      obtain ⟨pair, e⟩ := c
      by_cases hr : w.Rejects pair
      · exact (flushesWith_of_rejects hr).mpr (ih h h0)
      · obtain ⟨hP, hrest⟩ := h.write (V := V) (e := e) hr (Or.inr (Or.inl h0))
        refine (flushesWith_of_not_rejects hr).mpr ⟨hP, fun rc w' hw => ih (hrest rc w' hw) ?_⟩
        rw [(write_spec hr hw).1]
        exact fun hz => hr (Or.inl (by rw [hz]; exact UInt64.pos_iff_ne_zero.mpr h0))

/-- The buffer starts with documents that were accepted with another term only, or are there
twice. -/
def Mixed (w : IndexWriter) (acc : List Dt) : Prop :=
  ∃ ds ds', w.data = ds ++ ds' ∧ ds ≠ [] ∧ ∀ d, Dt.mk w.lastPair.term d ∈ acc → d ∈ ds'

theorem Mixed.not_homogeneous (h : Mixed w acc) : ¬ Homogeneous acc w := by
  obtain ⟨ds, ds', hdata, hne, hmem⟩ := h
  intro hh
  obtain ⟨d, ds, rfl⟩ := List.exists_cons_of_ne_nil hne
  have hd : d ∈ w.data := by
    rw [hdata]
    exact List.mem_cons_self
  obtain ⟨hasc, hacc⟩ := hh (List.ne_nil_of_mem hd)
  rw [hdata, List.pairwise_append] at hasc
  exact UInt64.lt_irrefl d (hasc.2.2 d List.mem_cons_self d (hmem d (hacc d hd)))

theorem Mixed.concat (h : Mixed w acc) (ht : pair.term ≠ w.lastPair.term) :
    Mixed w (acc ++ [pair]) := by
  obtain ⟨ds, ds', hdata, hne, hmem⟩ := h
  refine ⟨ds, ds', hdata, hne, fun d hd => ?_⟩
  rcases List.mem_append.mp hd with hd | hd
  · exact hmem d hd
  · exact absurd (congrArg Dt.term (List.mem_singleton.mp hd)).symm ht

theorem Mixed.pushed (h : Mixed w acc) (ht : pair.term = w.lastPair.term) :
    Mixed (w.pushed pair) (acc ++ [pair]) := by
  obtain ⟨ds, ds', hdata, hne, hmem⟩ := h
  refine ⟨ds, ds' ++ [pair.doc], ?_, hne, fun d hd => ?_⟩
  · show w.data ++ [pair.doc] = ds ++ (ds' ++ [pair.doc])
    rw [hdata, List.append_assoc]
  · rcases List.mem_append.mp hd with hd | hd
    · exact List.mem_append_left _ (hmem d (ht ▸ hd))
    · have hdoc : d = pair.doc := congrArg Dt.doc (List.mem_singleton.mp hd)
      exact List.mem_append_right _ (List.mem_singleton.mpr hdoc)

/-- The first document of a new term goes behind those of the term `0`. -/
theorem mixed_pushed (hne : w.data ≠ []) (hz : ∀ p ∈ acc, p.term = 0) (h0 : pair.term ≠ 0) :
    Mixed (w.pushed pair) (acc ++ [pair]) := by
  refine ⟨w.data, [pair.doc], rfl, hne, fun d hd => ?_⟩
  rcases List.mem_append.mp hd with hd | hd
  · exact absurd (hz _ hd) h0
  · exact List.mem_singleton.mpr (congrArg Dt.doc (List.mem_singleton.mp hd))

/-- A mixed buffer must not be flushed: all pairs to come have its term, and there is room. -/
theorem Mixed.flushesWith_iff (h : Mixed w acc) (h0 : w.lastPair.term ≠ 0)
    (hroom : w.data.length < w.maxy) :
    FlushesWith V Homogeneous w acc calls
      ↔ (∀ q ∈ acceptedFrom w.lastPair (calls.map Prod.fst), q.term = w.lastPair.term)
        ∧ w.data.length + (acceptedFrom w.lastPair (calls.map Prod.fst)).length < w.maxy := by
  induction calls generalizing w acc with
  | nil => exact iff_of_true trivial ⟨fun q hq => absurd hq List.not_mem_nil, hroom⟩
  | cons c calls ih =>
      obtain ⟨pair, e⟩ := c
      rw [List.map_cons]
      by_cases hr : w.Rejects pair
      · rw [flushesWith_of_rejects hr, acceptedFrom_of_rejects hr]
        exact ih h h0 hroom
      · rw [acceptedFrom_of_not_rejects hr, List.forall_mem_cons, List.length_cons]
        by_cases ht : pair.term = w.lastPair.term
        · by_cases hfull : w.maxy ≤ w.data.length + 1
          · have hat : w.flushAt pair = some (w.pushed pair) := by
              rw [flushAt_of_old_term hr (Or.inl ht), if_pos hfull]
            refine iff_of_false ?_ (fun hall => by omega)
            exact not_flushesWith hr hat (h.pushed ht).not_homogeneous
          · have hat : w.flushAt pair = none := by
              rw [flushAt_of_old_term hr (Or.inl ht), if_neg hfull]
            have hlen : (w.pushed pair).data.length = w.data.length + 1 := List.length_append
            have hih := ih (h.pushed ht) (show pair.term ≠ 0 from ht ▸ h0)
              (show (w.pushed pair).data.length < w.maxy by omega)
            rw [flushesWith_of_flushAt_none hr hat, hih, hlen]
            show (∀ q ∈ acceptedFrom pair _, q.term = pair.term)
              ∧ _ + (acceptedFrom pair _).length < w.maxy ↔ _
            rw [ht, and_iff_right rfl, Nat.add_right_comm, Nat.add_assoc]
        · have hat := flushAt_of_new_term hr ht h0
          refine iff_of_false ?_ (fun hall => ht hall.1.1)
          exact not_flushesWith hr hat (h.concat ht).not_homogeneous

/-- With `k` documents of the term `0` in the buffer, these accepted pairs do not mix: those of the
term `0` fill the buffer exactly, or there is room for all others, which have one term. -/
def Unmixed (maxy k : Nat) (l : List Dt) : Prop :=
  (k + l.countP (fun p => p.term = 0)) % maxy = 0
    ∨ (∀ p ∈ l, ∀ q ∈ l, p.term ≠ 0 → q.term ≠ 0 → p.term = q.term)
      ∧ (k + l.countP (fun p => p.term = 0)) % maxy + l.countP (fun p => p.term ≠ 0) < maxy

theorem unmixed_cons_zero (maxy k : Nat) (l : List Dt) (h : pair.term = 0) :
    Unmixed maxy k (pair :: l) ↔ Unmixed maxy ((k + 1) % maxy) l := by
  have hzero : (pair :: l).countP (fun p => p.term = 0) = l.countP (fun p => p.term = 0) + 1 :=
    List.countP_cons_of_pos (by simpa using h)
  have hothers : (pair :: l).countP (fun p => p.term ≠ 0) = l.countP (fun p => p.term ≠ 0) :=
    List.countP_cons_of_neg (by simpa using h)
  have hsum : (k + (pair :: l).countP (fun p => p.term = 0)) % maxy
      = ((k + 1) % maxy + l.countP (fun p => p.term = 0)) % maxy :=
    calc (k + (pair :: l).countP (fun p => p.term = 0)) % maxy
        = (k + 1 + l.countP (fun p => p.term = 0)) % maxy := by
          rw [hzero, Nat.add_assoc, Nat.add_comm 1]
      _ = ((k + 1) % maxy + l.countP (fun p => p.term = 0)) % maxy := (Nat.mod_add_mod _ _ _).symm
  rw [Unmixed, Unmixed, hsum, hothers]
  simp only [List.forall_mem_cons, h, ne_eq, not_true_eq_false, false_implies, true_and,
    implies_true]

theorem unmixed_cons_of_ne {maxy k : Nat} {l : List Dt} (hk : k < maxy) (h : pair.term ≠ 0)
    (hl : ∀ q ∈ l, q.term ≠ 0) :
    Unmixed maxy k (pair :: l)
      ↔ k = 0 ∨ (∀ q ∈ l, q.term = pair.term) ∧ k + (l.length + 1) < maxy := by
  have hall : ∀ q ∈ pair :: l, q.term ≠ 0 := List.forall_mem_cons.mpr ⟨h, hl⟩
  have hzero : (pair :: l).countP (fun p => p.term = 0) = 0 := by
    rw [List.countP_eq_zero]
    simpa using hall
  have hothers : (pair :: l).countP (fun p => p.term ≠ 0) = l.length + 1 := by
    rw [List.countP_eq_length.mpr (by simpa using hall), List.length_cons]
  rw [Unmixed, hzero, hothers, Nat.add_zero, Nat.mod_eq_of_lt hk]
  apply or_congr_right
  apply and_congr_left
  intro _
  refine ⟨fun hsame q hq => ?_, fun hsame p hp q hq _ _ => ?_⟩
  · exact hsame q (List.mem_cons_of_mem _ hq) pair List.mem_cons_self (hl q hq) h
  · have hterm : ∀ q ∈ pair :: l, q.term = pair.term := List.forall_mem_cons.mpr ⟨rfl, hsame⟩
    rw [hterm p hp, hterm q hq]

/-- Only pairs with the term `0` have been accepted. -/
structure ZeroPhase (w : IndexWriter) (acc : List Dt) : Prop where
  oneTerm : OneTerm w acc
  zero : w.lastPair.term = 0
  terms : ∀ p ∈ acc, p.term = 0
  room : w.data.length < w.maxy

theorem zeroPhase_init {maxy : Nat} (hmaxy : 1 ≤ maxy) : ZeroPhase (IndexWriter.init maxy) [] :=
  ⟨oneTerm_of_nil rfl _, rfl, fun _ hp => absurd hp List.not_mem_nil, hmaxy⟩

/-- One more of them. -/
theorem ZeroPhase.write (h : ZeroPhase w acc) (hr : ¬ w.Rejects pair) (h0 : pair.term = 0)
    (hw : w.write V pair e = some (rc, w')) :
    ZeroPhase w' (acc ++ [pair]) ∧ w'.data.length = (w.data.length + 1) % w.maxy := by
  have hroom := h.room
  obtain ⟨hlast, hm, hdata⟩ := write_spec hr hw
  have hlen : w'.data.length = (w.data.length + 1) % w.maxy := by
    rw [hdata, flushAt_of_old_term hr (Or.inr h.zero)]
    by_cases hfull : w.maxy ≤ w.data.length + 1
    · rw [if_pos hfull, show w.data.length + 1 = w.maxy by omega, Nat.mod_self]
      rfl
    · rw [if_neg hfull, Nat.mod_eq_of_lt (by omega)]
      exact List.length_append
  refine ⟨⟨?_, hlast ▸ h0, forall_mem_concat.mpr ⟨h.terms, h0⟩, ?_⟩, hlen⟩
  · exact (h.oneTerm.write hr (Or.inl (h0.trans h.zero.symm))).2 rc w' hw
  · rw [hlen, hm]
    exact Nat.mod_lt _ (by omega)

/-- The first pair of another term, and all behind it. -/
theorem ZeroPhase.flushesWith_cons_iff (h : ZeroPhase w acc) (hr : ¬ w.Rejects pair)
    (h0 : pair.term ≠ 0) :
    FlushesWith V Homogeneous w acc ((pair, e) :: calls)
      ↔ w.data.length = 0
        ∨ (∀ q ∈ acceptedFrom pair (calls.map Prod.fst), q.term = pair.term)
          ∧ w.data.length + ((acceptedFrom pair (calls.map Prod.fst)).length + 1) < w.maxy := by
  have hat := flushAt_of_old_term hr (Or.inr h.zero)
  by_cases hd : w.data = []
  · -- the buffer has been filled exactly
    refine iff_of_true ?_ (Or.inl (by rw [hd, List.length_nil]))
    obtain ⟨hok, hrest⟩ := h.oneTerm.write (V := V) (e := e) hr (Or.inr (Or.inr hd))
    refine (flushesWith_of_not_rejects hr).mpr ⟨hok, fun rc w' hw => ?_⟩
    refine (hrest rc w' hw).flushesWith ?_
    rw [(write_spec hr hw).1]
    exact h0
  · have hmix := mixed_pushed hd h.terms h0
    have hpos : w.data.length ≠ 0 := fun hz => hd (List.length_eq_zero_iff.mp hz)
    rw [or_iff_right hpos]
    by_cases hfull : w.maxy ≤ w.data.length + 1
    · rw [if_pos hfull] at hat
      exact iff_of_false (not_flushesWith hr hat hmix.not_homogeneous) (fun hall => by omega)
    · rw [if_neg hfull] at hat
      have hlen : (w.pushed pair).data.length = w.data.length + 1 := List.length_append
      have hiff : FlushesWith V Homogeneous (w.pushed pair) (acc ++ [pair]) calls
          ↔ (∀ q ∈ acceptedFrom pair (calls.map Prod.fst), q.term = pair.term)
            ∧ (w.pushed pair).data.length + (acceptedFrom pair (calls.map Prod.fst)).length
              < w.maxy :=
        hmix.flushesWith_iff h0 (show (w.pushed pair).data.length < w.maxy by omega)
      rw [flushesWith_of_flushAt_none hr hat, hiff, hlen, Nat.add_right_comm, Nat.add_assoc]

/-- **All calls**, as long as only pairs with the term `0` have been accepted. -/
theorem ZeroPhase.flushesWith_iff (h : ZeroPhase w acc) :
    FlushesWith V Homogeneous w acc calls
      ↔ Unmixed w.maxy w.data.length (acceptedFrom w.lastPair (calls.map Prod.fst)) := by
  induction calls generalizing w acc with
  | nil =>
      refine iff_of_true trivial (Or.inr ⟨fun p hp => absurd hp List.not_mem_nil, ?_⟩)
      exact Nat.mod_lt _ (Nat.lt_of_le_of_lt (Nat.zero_le _) h.room)
  | cons c calls ih =>
      obtain ⟨pair, e⟩ := c
      rw [List.map_cons]
      by_cases hr : w.Rejects pair
      · rw [flushesWith_of_rejects hr, acceptedFrom_of_rejects hr]
        exact ih h
      · rw [acceptedFrom_of_not_rejects hr]
        by_cases h0 : pair.term = 0
        · have hok := (h.oneTerm.write (V := V) (e := e) hr (Or.inl (h0.trans h.zero.symm))).1
          have hne : ∀ v, w.flushAt pair = some v → v.data ≠ [] := by
            intro v hv
            obtain ⟨-, ⟨hnew, -⟩ | ⟨-, -, rfl⟩⟩ := flushAt_eq_some hv
            · exact absurd h.zero hnew.2
            · exact List.append_ne_nil_of_right_ne_nil _ (List.cons_ne_nil _ _)
          rw [unmixed_cons_zero _ _ _ h0]
          refine (Iw.flushesWith_cons_iff hr hne (fun rc w' hw => ?_)).trans (and_iff_right hok)
          obtain ⟨h', hlen⟩ := h.write hr h0 hw
          obtain ⟨hlast, hm, -⟩ := write_spec hr hw
          rw [ih h', hlast, hlen, hm]
        · have hl : ∀ q ∈ acceptedFrom pair (calls.map Prod.fst), q.term ≠ 0 := by
            intro q hq hz
            have hle := term_le_of_mem_acceptedFrom pair _ q hq
            rw [hz] at hle
            exact h0 (UInt64.le_zero_iff.mp hle)
          rw [unmixed_cons_of_ne h.room h0 hl]
          exact h.flushesWith_cons_iff hr h0

/-- Whenever a flush is run on something, this has one term and is ascending. -/
def FlushesHomogeneous (V : Vbyte) (maxy : Nat) (calls : List (Dt × Env)) : Prop :=
  FlushesWith V Homogeneous (IndexWriter.init maxy) [] calls

/-- **When blocks have one term and are ascending**: if the pairs accepted with the term `0` fill
the buffer exactly, or all others have one term and do not fill it up. -/
theorem flushesHomogeneous_iff (V : Vbyte) (maxy : Nat) (hmaxy : 1 ≤ maxy)
    (calls : List (Dt × Env)) :
    FlushesHomogeneous V maxy calls ↔ Unmixed maxy 0 (accepted (calls.map Prod.fst)) :=
  (zeroPhase_init hmaxy).flushesWith_iff

/-- One term, and a buffer of two. -/
theorem flushesHomogeneous_two :
    FlushesHomogeneous Vbyte.plain 2 [(⟨1, 3⟩, ⟨true, 0⟩), (⟨1, 4⟩, ⟨true, 0⟩)] :=
  (flushesHomogeneous_iff Vbyte.plain 2 (by decide) _).mpr (Or.inl (by decide))

/-- A document of the term `0` is flushed under the term `1`, and before a smaller one. -/
theorem not_flushesHomogeneous_two :
    ¬ FlushesHomogeneous Vbyte.plain 2 [(⟨0, 5⟩, ⟨true, 0⟩), (⟨1, 3⟩, ⟨true, 0⟩)] := by
  rintro ⟨-, h1⟩
  obtain ⟨h2, -⟩ := h1 0 ⟨⟨0, 5⟩, 2, [5], []⟩ rfl
  obtain ⟨hasc, -⟩ := h2 ⟨⟨1, 3⟩, 2, [5, 3], []⟩ rfl (List.cons_ne_nil _ _)
  exact absurd hasc (by decide)

/-! ## Flushes that fail -/

/-- If the flush that this call runs fails, then the call returns the same value, and what was in
the buffer is still there. -/
def ReportsFailure (V : Vbyte) (w : IndexWriter) (pair : Dt) (e : Env) : Prop :=
  ∀ v rc v', w.flushAt pair = some v → v.flush V e = some (rc, v') → rc ≠ 0 →
    ∃ w', w.write V pair e = some (rc, w') ∧ ∀ d ∈ v.data, d ∈ w'.data

/-- The call runs a flush, and `malloc` fails in it or the callback returns something other than
`0`. -/
def FlushFails (w : IndexWriter) (pair : Dt) (e : Env) : Prop :=
  ∃ v, w.flushAt pair = some v ∧ (e.malloc = false ∨ v.data ≠ [] ∧ e.callback ≠ 0)

theorem flush_of_malloc_false (h : e.malloc = false) : v.flush V e = some (-1, v) := by
  rw [IndexWriter.flush, if_pos h]

/-- What a flush returns. -/
theorem flush_of_malloc (h : e.malloc = true) (hf : v.flush V e = some (rc, v')) :
    v.data ≠ [] ∧ rc = e.callback := by
  rw [IndexWriter.flush, if_neg (by rw [h]; exact Bool.false_ne_true.symm)] at hf
  split at hf
  · exact absurd hf (by simp)
  · rename_i d ds hd
    rw [Option.some.injEq, Prod.mk.injEq] at hf
    rw [hd]
    exact ⟨List.cons_ne_nil _ _, hf.1.symm⟩

theorem flushFails_iff (V : Vbyte) (w : IndexWriter) (pair : Dt) (e : Env) :
    FlushFails w pair e
      ↔ ∃ v rc v', w.flushAt pair = some v ∧ v.flush V e = some (rc, v') ∧ rc ≠ 0 := by
  rcases Bool.eq_false_or_eq_true e.malloc with hm | hm
  · constructor
    · rintro ⟨v, hat, hfail⟩
      obtain ⟨hne, hcb⟩ := hfail.resolve_left (by rw [hm]; exact Bool.false_ne_true.symm)
      obtain ⟨rc, v', hf⟩ := exists_flush hne V e
      exact ⟨v, rc, v', hat, hf, (flush_of_malloc hm hf).2 ▸ hcb⟩
    · rintro ⟨v, rc, v', hat, hf, hrc⟩
      obtain ⟨hne, rfl⟩ := flush_of_malloc hm hf
      exact ⟨v, hat, Or.inr ⟨hne, hrc⟩⟩
  · constructor
    · rintro ⟨v, hat, -⟩
      exact ⟨v, -1, v, hat, flush_of_malloc_false hm, by decide⟩
    · rintro ⟨v, rc, v', hat, -, -⟩
      exact ⟨v, hat, Or.inl hm⟩

/-- A flush that fails is not reported, or has lost its documents. -/
theorem not_reportsFailure_of_flush (hat : w.flushAt pair = some v)
    (hf : v.flush V e = some (rc, v')) (hrc : rc ≠ 0) : ¬ ReportsFailure V w pair e := by
  intro h
  obtain ⟨w', hw, hdata⟩ := h v rc v' hat hf hrc
  obtain ⟨hr, hcases⟩ := flushAt_eq_some hat
  have hempty : w'.data = [] := by
    have hspec := (write_spec hr hw).2.2
    rwa [hat] at hspec
  rw [write_of_flushAt hat, hf, Option.map_some, Option.some.injEq, Prod.mk.injEq] at hw
  rcases hcases with ⟨hnew, -⟩ | ⟨-, -, rfl⟩
  · -- at a new term the call returns `0`
    rw [if_pos hnew] at hw
    exact hrc hw.1.symm
  · -- a full buffer has at least the new document, and is empty afterwards
    have hmem := hdata pair.doc (List.mem_append_right _ (List.mem_singleton.mpr rfl))
    rw [hempty] at hmem
    exact absurd hmem List.not_mem_nil

/-- **When a failure is reported and loses nothing**: in no call with a flush that fails. -/
theorem reportsFailure_iff (V : Vbyte) (w : IndexWriter) (pair : Dt) (e : Env) :
    ReportsFailure V w pair e ↔ ¬ FlushFails w pair e := by
  rw [flushFails_iff V]
  constructor
  · rintro h ⟨v, rc, v', hat, hf, hrc⟩
    exact not_reportsFailure_of_flush hat hf hrc h
  · intro h v rc v' hat hf hrc
    exact absurd ⟨v, rc, v', hat, hf, hrc⟩ h

/-- The states a writer can come to. -/
inductive Reachable (V : Vbyte) (maxy : Nat) : IndexWriter → Prop where
  | init : Reachable V maxy (IndexWriter.init maxy)
  | write {w w' : IndexWriter} {pair : Dt} {e : Env} {rc : Int32} :
      Reachable V maxy w → w.write V pair e = some (rc, w') → Reachable V maxy w'

/-- A writer with one document: at a new term a failure of `malloc` is not reported, and with a
full buffer a failure of the callback loses both documents. -/
theorem not_reportsFailure_one :
    (Reachable Vbyte.plain 9 ⟨⟨1, 1⟩, 9, [1], []⟩
        ∧ ¬ ReportsFailure Vbyte.plain ⟨⟨1, 1⟩, 9, [1], []⟩ ⟨2, 5⟩ ⟨false, 0⟩)
      ∧ Reachable Vbyte.plain 2 ⟨⟨1, 1⟩, 2, [1], []⟩
        ∧ ¬ ReportsFailure Vbyte.plain ⟨⟨1, 1⟩, 2, [1], []⟩ ⟨1, 5⟩ ⟨true, 7⟩ := by
  refine ⟨⟨?_, ?_⟩, ?_, ?_⟩
  · have hw : (IndexWriter.init 9).write Vbyte.plain ⟨1, 1⟩ ⟨true, 0⟩
        = some (0, ⟨⟨1, 1⟩, 9, [1], []⟩) := rfl
    exact Reachable.init.write hw
  · exact not_reportsFailure_of_flush rfl rfl (by decide)
  · have hw : (IndexWriter.init 2).write Vbyte.plain ⟨1, 1⟩ ⟨true, 0⟩
        = some (0, ⟨⟨1, 1⟩, 2, [1], []⟩) := rfl
    exact Reachable.init.write hw
  · exact not_reportsFailure_of_flush rfl rfl (by decide)

end

end CSearch.Iw
