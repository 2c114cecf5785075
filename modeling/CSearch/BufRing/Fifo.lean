import CSearch.BufRing.Invariant

set_option autoImplicit false

/-! # Nothing is lost, repeated or reordered in orderly runs

The tickets are a sequential history of a queue, and every thread agrees with it (`fifo`). When no
call is in progress, the ring is the queue of the pointers that were put in and not taken out, as the
functions of `BufRing.Ring` see it (`quiescent`). Threads never wait for each other in a circle
(`progress`). An enqueue gives up only if the ring has been full during its call (`dropped_full`), if
its second look is not deceived either (`Watchful`).
-/

namespace CSearch.BufRing

variable {ι α : Type} [DecidableEq ι] {k : Nat} {br : BufRing α} {t t' : Traced ι α} {i : ι}

theorem inv_init (hrep : Rep k 0 ⟨[], 0⟩ br) : Inv k (Traced.init br : Traced ι α) where
  shared :=
    { sized := hrep.sized
      prodHead := hrep.prodHead
      prodTail := hrep.prodTail
      consHead := hrep.consHead
      consTail := hrep.consTail
      deq_le := Nat.le_refl 0
      le := Nat.le_refl 0
      enq_le := Nat.le_refl 0
      room := Nat.lt_of_lt_of_eq (Nat.two_pow_pos k) (Nat.zero_add _).symm
      items := rfl
      ring := fun n p _ hlt => absurd hlt (Nat.not_lt_zero n) }
  own := by
    intro i
    refine ⟨trivial, fun m b hheld => ?_, fun m b hheld => ?_, rfl, rfl⟩
    · exact absurd hheld.lt (Nat.not_lt_zero m)
    · exact absurd hheld.lt (Nat.not_lt_zero m)

theorem Inv.step (h : Inv k t) (halone : Alone t) {a : Act α} (hstep : t.step i a = some t')
    (ho : Orderly t i t') : Inv k t' := by
  rcases step_cases hstep with ⟨c, hidle, rfl⟩ | ⟨weak, hidle, rfl⟩
  · exact h.begin hidle c
  · exact h.access halone i weak hidle ho

/-- **Every state of an orderly run** satisfies the invariant. -/
theorem reaches_inv (hrep : Rep k 0 ⟨[], 0⟩ br) (h : Reaches Orderly br t) : Inv k t ∧ Alone t := by
  unfold Reaches at h
  induction h with
  | refl => exact ⟨inv_init hrep, fun i j hsc => absurd hsc Bool.false_ne_true⟩
  | step _ hstep ho ih => exact ⟨ih.1.step ih.2 hstep ho, ho.alone⟩

/-! ## The history -/

/-- The tickets taken so far stay. -/
theorem step_claims {a : Act α} (hstep : t.step i a = some t') :
    t.enq.claims <+: t'.enq.claims ∧ t.deq.claims <+: t'.deq.claims := by
  rcases step_cases hstep with ⟨c, -, rfl⟩ | ⟨weak, -, rfl⟩
  · exact ⟨List.prefix_refl _, List.prefix_refl _⟩
  · show t.enq.claims <+: (t.toGhost.note i _).enq.claims
      ∧ t.deq.claims <+: (t.toGhost.note i _).deq.claims
    cases (BufRing.access t.br weak (t.pc i)).mark with
    | tookProd buf => exact ⟨List.prefix_append _ _, List.prefix_refl _⟩
    | tookCons => exact ⟨List.prefix_refl _, List.prefix_append _ _⟩
    | _ => exact ⟨List.prefix_refl _, List.prefix_refl _⟩

theorem Leads.claims {P : Traced ι α → ι → Traced ι α → Prop} (h : Leads P t t') :
    t.enq.claims <+: t'.enq.claims ∧ t.deq.claims <+: t'.deq.claims := by
  induction h with
  | refl => exact ⟨List.prefix_refl _, List.prefix_refl _⟩
  | step _ hstep _ ih =>
      have hnext := step_claims hstep
      exact ⟨ih.1.trans hnext.1, ih.2.trans hnext.2⟩

/-- The pointer of an enqueue that has its ticket and is still in progress. -/
def Pc.inHand : Pc α → List (Option α)
  | .enqStore b _ | .enqWait b _ | .enqPublish b _ => [b]
  | _ => []

/-- The pointer of a dequeue that has its ticket and is still in progress: it is in its slot, or has
been read. -/
def Pc.fetching (br : BufRing α) : Pc α → List (Option α)
  | .deqLoad g | .scLoad g => [br.ring g.toNat]
  | .deqWait _ b | .deqPublish _ b | .scPublish _ b => [b]
  | _ => []

theorem Inv.pending_eq_inHand (h : Inv k t) (i : ι) :
    pending t.enq (t.seen i) (t.pc i).holdsEnq = (t.pc i).inHand := by
  cases hpc : t.pc i with
  | enqStore b g => exact pending_held (h.ok_of hpc).2
  | enqWait b g => exact pending_held (h.ok_of hpc).2.1
  | enqPublish b g => exact pending_held (h.ok_of hpc).2.1
  | _ => rfl

/-- A slot keeps its pointer until the ticket is handed back. -/
theorem Inv.pending_of_load (h : Inv k t) {g : UInt32}
    (hok : g.toNat = t.seen i % 2 ^ k ∧ ∃ b, t.deq.Held i (t.seen i) b) :
    pending t.deq (t.seen i) true = [t.br.ring g.toNat] := by
  obtain ⟨hg, b, hheld⟩ := hok
  rw [pending_held hheld, hg, h.shared.ring_of_held hheld]

theorem Inv.pending_eq_fetching (h : Inv k t) (i : ι) :
    pending t.deq (t.seen i) (t.pc i).holdsDeq = (t.pc i).fetching t.br := by
  cases hpc : t.pc i with
  | deqLoad g => exact h.pending_of_load (h.ok_of hpc)
  | scLoad g => exact h.pending_of_load (h.ok_of hpc)
  | deqWait g b => exact pending_held (h.ok_of hpc).2
  | deqPublish g b => exact pending_held (h.ok_of hpc).2.1
  | scPublish g b => exact pending_held (h.ok_of hpc).2.1
  | _ => rfl

/-- **The history**: the pointers taken out are the first of those put in, in the same order; the
tickets of a thread are its finished calls, in order, and the call in progress if that has a ticket;
and at most `cap` pointers are put in and not taken out. -/
structure Fifo (cap : Nat) (t : Traced ι α) : Prop where
  order : t.deq.items <+: t.enq.items
  enqueued : ∀ i, t.enq.itemsOf i = enqueuedOf (t.returned i) ++ (t.pc i).inHand
  dequeued : ∀ i, t.deq.itemsOf i = dequeuedOf (t.returned i) ++ (t.pc i).fetching t.br
  room : t.enq.items.length ≤ t.deq.items.length + cap

theorem Inv.history (h : Inv k t) : Fifo (2 ^ k - 1) t where
  order := by
    rw [h.shared.items]
    exact List.take_prefix _ _
  enqueued := by
    intro i
    rw [← h.pending_eq_inHand]
    exact (h.own i).enqueued.symm
  dequeued := by
    intro i
    rw [← h.pending_eq_fetching]
    exact (h.own i).dequeued.symm
  room := by
    have hroom := h.shared.room
    have hle := h.shared.deq_le
    rw [Turnstile.items_length, Turnstile.items_length]
    omega

/-- **Any number of threads, any interleaving.** In an orderly run the calls of all threads are those
of one queue: the tickets are its history, a history that only gets longer, so that a call that is
over when another one begins comes first in it. -/
theorem fifo (k : Nat) (hk : k ≤ 30) (br : BufRing α)
    (halloc : alloc (Int32.ofNat (2 ^ k)) true = some br) (t : Traced ι α)
    (h : Reaches Orderly br t) :
    Fifo (2 ^ k - 1) t
      ∧ ∀ t', Leads Orderly t t' →
          t.enq.claims <+: t'.enq.claims ∧ t.deq.claims <+: t'.deq.claims := by
  exact ⟨(reaches_inv (rep_of_alloc hk halloc) h).1.history, fun t' hleads => hleads.claims⟩

/-- Thread `0` reads an index and is overtaken by three enqueues in a ring of two slots. Its exchange
fails, it tries again, and its pointer is the last. -/
theorem fifo_overtaken :
    ∃ (br : BufRing Nat) (t : Traced (Fin 2) Nat), alloc (Int32.ofNat (2 ^ 1)) true = some br
      ∧ Reaches Orderly br t ∧ t.enq.items = [some 5, some 6, some 7, some 8] ∧ Fifo 1 t := by
  have hrun : ((Traced.init ⟨0, 0, 2, 1, 0, 0, 0, 2, 1, fun _ => none⟩ : Traced (Fin 2) Nat).runWhile
      Orderly ((0, .call (.enqueue (some 8))) :: (0, .access false)
        :: (1, .call (.enqueue (some 5))) :: List.replicate 6 (1, .access false)
        ++ (1, .call .dequeueMc) :: List.replicate 6 (1, .access false)
        ++ (1, .call (.enqueue (some 6))) :: List.replicate 6 (1, .access false)
        ++ (1, .call .dequeueMc) :: List.replicate 6 (1, .access false)
        ++ (1, .call (.enqueue (some 7))) :: List.replicate 6 (1, .access false)
        ++ (1, .call .dequeueMc) :: List.replicate 6 (1, .access false)
        ++ List.replicate 6 (0, .access false))).map (fun t => t.enq.items)
      = some [some 5, some 6, some 7, some 8] := by decide +kernel
  obtain ⟨t, hrun, hitems⟩ := Option.map_eq_some_iff.mp hrun
  have hreach : Reaches Orderly _ t := (Leads.refl _).runWhile hrun
  exact ⟨_, t, rfl, hreach, hitems, (fifo 1 (by decide) _ rfl t hreach).1⟩

/-! ## No call in progress -/

/-- Without calls in progress no ticket is held. -/
theorem Inv.done_eq_head (h : Inv k t) (hidle : ∀ i, t.pc i = .idle) :
    t.enq.done = t.enq.head ∧ t.deq.done = t.deq.head := by
  constructor
  · by_contra hne
    obtain ⟨i, x, hheld⟩ := Turnstile.exists_held (Nat.lt_of_le_of_ne h.shared.enq_le hne)
    have hholds := ((h.own i).enqHeld _ x hheld).2
    rw [hidle] at hholds
    cases hholds
  · by_contra hne
    obtain ⟨i, x, hheld⟩ := Turnstile.exists_held (Nat.lt_of_le_of_ne h.shared.deq_le hne)
    have hholds := ((h.own i).deqHeld _ x hheld).2
    rw [hidle] at hholds
    cases hholds

theorem Inv.rep (h : Inv k t) (hidle : ∀ i, t.pc i = .idle) :
    Rep k t.deq.head ⟨t.enq.items.drop t.deq.head, t.br.drops.toNat⟩ t.br := by
  obtain ⟨henq, hdeq⟩ := h.done_eq_head hidle
  have hs := h.shared
  have hle := hs.le.trans hs.enq_le
  have hlen : (t.enq.items.drop t.deq.head).length = t.enq.head - t.deq.head := by
    rw [List.length_drop, Turnstile.items_length]
  have hsum : t.deq.head + (t.enq.items.drop t.deq.head).length = t.enq.head := by
    rw [hlen]
    omega
  refine ⟨hs.sized, hs.consHead, ?_, ?_, ?_, ?_, ?_, ?_⟩
  · rw [hs.consTail, hdeq]
  · rw [hs.prodHead, hsum]
  · rw [hs.prodTail, hsum, henq]
  · have hroom := hs.room
    rw [hlen]
    omega
  · intro j p hp
    rw [List.getElem?_drop] at hp
    have hlt : t.deq.head + j < t.enq.head := by
      rw [← Turnstile.items_length (t := t.enq)]
      exact (List.getElem?_eq_some_iff.mp hp).1
    exact hs.ring _ p (by omega) (by omega) hp
  · exact UInt64.toNat_inj.mp (UInt64.toNat_ofNat_of_lt' t.br.drops.toNat_lt).symm

/-- **After an orderly run**, once no call is in progress, the ring is the queue of the pointers that
were put in and not taken out: whatever functions are called then, one after the other, return what
they return for that queue. -/
theorem quiescent (k : Nat) (hk : k ≤ 30) (br : BufRing α)
    (halloc : alloc (Int32.ofNat (2 ^ k)) true = some br) (t : Traced ι α) (h : Reaches Orderly br t)
    (hidle : ∀ i, t.pc i = .idle) (ops : List (Op α)) :
    ∃ q, t.deq.items ++ q = t.enq.items
      ∧ (∀ i, t.enq.itemsOf i = enqueuedOf (t.returned i))
      ∧ (∀ i, t.deq.itemsOf i = dequeuedOf (t.returned i))
      ∧ ∃ br', t.br.execAll ops
          = some (br', ((Queue.mk q t.br.drops.toNat).execAll (2 ^ k - 1) ops).2) := by
  have hinv := (reaches_inv (rep_of_alloc hk halloc) h).1
  obtain ⟨br', c, hexec, -⟩ := (hinv.rep hidle).execAll ops
  refine ⟨t.enq.items.drop t.deq.head, ?_, fun i => ?_, fun i => ?_, br', hexec⟩
  · rw [hinv.shared.items, List.take_append_drop]
  · rw [hinv.history.enqueued i, hidle i]
    exact List.append_nil _
  · rw [hinv.history.dequeued i, hidle i]
    exact List.append_nil _

/-- Both calls are over. -/
theorem quiescent_overlapping :
    ∃ (br : BufRing Nat) (t : Traced (Fin 2) Nat), alloc (Int32.ofNat (2 ^ 2)) true = some br
      ∧ Reaches Orderly br t ∧ (∀ i, t.pc i = .idle)
      ∧ ∃ br', t.br.execAll [.count, .dequeueMc, .dequeueMc, .dequeueMc]
          = some (br', [.int 2, .ptr (some 8), .ptr (some 7), .ptr none]) := by
  have hrun : ∃ t : Traced (Fin 2) Nat,
      (Traced.init ⟨0, 0, 4, 3, 0, 0, 0, 4, 3, fun _ => none⟩).runWhile Orderly
      ([(0, .call (.enqueue (some 7))), (1, .call (.enqueue (some 8)))]
        ++ List.replicate 6 (1, .access false) ++ List.replicate 6 (0, .access false)) = some t
      ∧ (∀ i, t.pc i = .idle) ∧ t.deq.items = [] ∧ t.enq.items = [some 8, some 7] :=
    ⟨_, rfl, Fin.forall_fin_two.mpr ⟨rfl, rfl⟩, rfl, rfl⟩
  obtain ⟨t, hrun, hidle, hdeq, henq⟩ := hrun
  have hreach : Reaches Orderly _ t := (Leads.refl _).runWhile hrun
  obtain ⟨q, hq, -, -, hexec⟩ := quiescent 2 (by decide) _ rfl t hreach hidle
    [.count, .dequeueMc, .dequeueMc, .dequeueMc]
  rw [hdeq, henq, List.nil_append] at hq
  subst hq
  exact ⟨_, t, rfl, hreach, hidle, hexec⟩

/-! ## Enqueues that give up -/

/-- Whoever has found the ring full at both looks has been in its call at a moment when it was. -/
def Saw (t : Traced ι α) : Prop := ∀ i, (t.pc i).gaveUp = true → t.sawFull i = true

/-- The second look is at an index that has not gone round, so the first one was right. -/
theorem Inv.sawFull_of_look (h : Inv k t) {weak : Bool} (hgive : (t.pc i).gaveUp = false)
    (hgive' : (BufRing.access t.br weak (t.pc i)).pc.gaveUp = true)
    (hbehind : t.behind i < slots t.br) : t.sawFull i = true := by
  obtain ⟨b, g, c, hpc, heq⟩ := access_gaveUp hgive hgive'
  obtain ⟨hseen, hknown⟩ := h.ok_of hpc
  refine (hknown (h.seen_eq_enq_head hseen.1 hseen.2 hbehind ?_ heq.symm)).1
  rw [Traced.behind, hpc]

theorem Saw.step (h : Saw t) (hinv : Inv k t) {a : Act α} (hstep : t.step i a = some t')
    (hw : Watchful t i t') : Saw t' := by
  rcases step_cases hstep with ⟨c, -, rfl⟩ | ⟨weak, -, rfl⟩
  · intro j hj
    by_cases hji : j = i
    · subst hji
      have hstart : (Function.update t.pc j c.start j).gaveUp = true := hj
      rw [Function.update_self] at hstart
      cases c <;> cases hstart
    · have hpc : (t.begin i c).pc j = t.pc j := Function.update_of_ne hji _ _
      rw [hpc] at hj
      exact (Function.update_of_ne hji _ _).trans (h j hj)
  · intro j hj
    have hsaw : t.sawFull j = true := by
      by_cases hji : j = i
      · subst hji
        cases hgive : (t.pc j).gaveUp with
        | true => exact h j hgive
        | false =>
            have hlook := hw.look hgive hj
            have hpc : (Function.update t.pc j (BufRing.access t.br weak (t.pc j)).pc j).gaveUp
                = true := hj
            rw [Function.update_self] at hpc
            exact hinv.sawFull_of_look hgive hpc hlook
      · have hpc : (t.after i (BufRing.access t.br weak (t.pc i))).pc j = t.pc j :=
          Function.update_of_ne hji _ _
        rw [hpc] at hj
        exact h j hj
    show (t.sawFull j || _) = true
    rw [hsaw, Bool.true_or]

theorem reaches_saw (hrep : Rep k 0 ⟨[], 0⟩ br) (h : Reaches Watchful br t) : Saw t := by
  unfold Reaches at h
  induction h with
  | refl => exact fun i hi => absurd hi Bool.false_ne_true
  | step hreach hstep hw ih =>
      have horderly : Reaches Orderly br _ := hreach.mono (fun _ _ _ hw' => hw'.toOrderly)
      exact ih.step (reaches_inv hrep horderly).1 hstep hw

/-- **`-1` is returned for a reason**: `buf_ring_full` has held at some moment since the call began, if
no second look took an index that has gone round for unchanged. -/
theorem dropped_full (k : Nat) (hk : k ≤ 30) (br : BufRing α)
    (halloc : alloc (Int32.ofNat (2 ^ k)) true = some br) (t t' : Traced ι α)
    (h : Reaches Watchful br t) (i : ι) (a : Act α) (hstep : t.step i a = some t') (b : Option α)
    (hout : t'.returned i = t.returned i ++ [.dropped b]) : t.sawFull i = true := by
  obtain ⟨weak, -, hout'⟩ := step_returns hstep hout
  obtain ⟨d, hpc⟩ := access_out hout'
  refine reaches_saw (rep_of_alloc hk halloc) h i ?_
  rw [hpc]
  rfl

/-- Thread `0` reads an index when a slot of four is free, thread `1` takes that slot, and thread `0`
gives up at its second attempt. -/
theorem dropped_full_overtaken :
    ∃ (br : BufRing Nat) (t : Traced (Fin 2) Nat), alloc (Int32.ofNat (2 ^ 2)) true = some br
      ∧ Reaches Watchful br t ∧ t.enq.items = [some 5, some 6, some 7] ∧ t.sawFull 0 = true := by
  have hrun : ∃ t t' : Traced (Fin 2) Nat,
      (Traced.init ⟨0, 0, 4, 3, 0, 0, 0, 4, 3, fun _ => none⟩).runWhile Watchful
      ((1, .call (.enqueue (some 5))) :: List.replicate 6 (1, .access false)
        ++ (1, .call (.enqueue (some 6))) :: List.replicate 6 (1, .access false)
        ++ (0, .call (.enqueue (some 8))) :: (0, .access false)
        :: (1, .call (.enqueue (some 7))) :: List.replicate 6 (1, .access false)
        ++ List.replicate 7 (0, .access false)) = some t
      ∧ t.step 0 (.access false) = some t'
      ∧ t'.returned 0 = t.returned 0 ++ [.dropped (some 8)]
      ∧ t.enq.items = [some 5, some 6, some 7] := ⟨_, _, rfl, rfl, rfl, rfl⟩
  obtain ⟨t, t', hrun, hstep, hout, hitems⟩ := hrun
  have hreach : Reaches Watchful _ t := (Leads.refl _).runWhile hrun
  exact ⟨_, t, rfl, hreach, hitems,
    dropped_full 2 (by decide) _ rfl t t' hreach 0 (.access false) hstep (some 8) hout⟩

/-! ## Waiting -/

/-- The thread with the oldest ticket does not wait in vain. -/
theorem Inv.enqWait_moves (h : Inv k t) {b : Option α} {g : UInt32} {weak : Bool}
    (hpc : t.pc i = .enqWait b g) (hseen : t.seen i = t.enq.done) :
    (BufRing.access t.br weak (t.pc i)).pc ≠ t.pc i := by
  have hg : t.br.prodTail = g := by
    rw [← UInt32.toNat_inj, h.shared.prodTail, (h.ok_of hpc).1, hseen]
  rw [hpc, BufRing.access, if_neg (not_not_intro hg)]
  intro heq
  cases heq

theorem Inv.deqWait_moves (h : Inv k t) {b : Option α} {g : UInt32} {weak : Bool}
    (hpc : t.pc i = .deqWait g b) (hseen : t.seen i = t.deq.done) :
    (BufRing.access t.br weak (t.pc i)).pc ≠ t.pc i := by
  have hg : t.br.consTail = g := by
    rw [← UInt32.toNat_inj, h.shared.consTail, (h.ok_of hpc).1, hseen]
  rw [hpc, BufRing.access, if_neg (not_not_intro hg)]
  intro heq
  cases heq

/-- **Threads never wait for each other in a circle**: as long as a call is in progress, there is a
thread in a call whose next access takes it on, whatever a weak exchange does. -/
theorem progress (k : Nat) (hk : k ≤ 30) (br : BufRing α)
    (halloc : alloc (Int32.ofNat (2 ^ k)) true = some br) (t : Traced ι α) (h : Reaches Orderly br t)
    (i : ι) (hi : t.pc i ≠ .idle) :
    ∃ j, t.pc j ≠ .idle ∧ ∀ weak, (access t.br weak (t.pc j)).pc ≠ t.pc j := by
  have hinv := (reaches_inv (rep_of_alloc hk halloc) h).1
  cases hwait : (t.pc i).waiting with
  | false => exact ⟨i, hi, fun weak => access_moves hi hwait⟩
  | true =>
      cases hpc : t.pc i with
      | enqWait b g =>
          -- the producer with the oldest ticket
          have hheld := (hinv.ok_of hpc).2.1
          obtain ⟨j, x, holdest⟩ := Turnstile.exists_held (Nat.lt_of_le_of_lt hheld.1 hheld.lt)
          obtain ⟨hseen, hholds⟩ := (hinv.own j).enqHeld _ x holdest
          have hj : t.pc j ≠ .idle := fun hidle => by rw [hidle] at hholds; cases hholds
          refine ⟨j, hj, fun weak => ?_⟩
          cases hpcj : t.pc j with
          | enqWait b' g' => rw [← hpcj]; exact hinv.enqWait_moves hpcj hseen.symm
          | enqStore b' g' => exact access_moves nofun rfl
          | enqPublish b' g' => exact access_moves nofun rfl
          | _ => rw [hpcj] at hholds; cases hholds
      | deqWait g b =>
          -- the consumer with the oldest ticket
          have hheld := (hinv.ok_of hpc).2
          obtain ⟨j, x, holdest⟩ := Turnstile.exists_held (Nat.lt_of_le_of_lt hheld.1 hheld.lt)
          obtain ⟨hseen, hholds⟩ := (hinv.own j).deqHeld _ x holdest
          have hj : t.pc j ≠ .idle := fun hidle => by rw [hidle] at hholds; cases hholds
          refine ⟨j, hj, fun weak => ?_⟩
          cases hpcj : t.pc j with
          | deqWait g' b' => rw [← hpcj]; exact hinv.deqWait_moves hpcj hseen.symm
          | deqLoad g' => exact access_moves nofun rfl
          | deqPublish g' b' => exact access_moves nofun rfl
          | scLoad g' => exact access_moves nofun rfl
          | scPublish g' b' => exact access_moves nofun rfl
          | _ => rw [hpcj] at hholds; cases hholds
      | _ => rw [hpc] at hwait; cases hwait

/-- Thread `1` waits for thread `0`. -/
theorem progress_waiting :
    ∃ (br : BufRing Nat) (t : Traced (Fin 2) Nat), alloc (Int32.ofNat (2 ^ 2)) true = some br
      ∧ Reaches Orderly br t ∧ t.pc 1 = .enqWait (some 8) 1 ∧ t.br.prodTail = 0
      ∧ ∃ j, t.pc j ≠ .idle ∧ ∀ weak, (access t.br weak (t.pc j)).pc ≠ t.pc j := by
  have hrun : ∃ t : Traced (Fin 2) Nat,
      (Traced.init ⟨0, 0, 4, 3, 0, 0, 0, 4, 3, fun _ => none⟩).runWhile Orderly
      ((0, .call (.enqueue (some 7))) :: List.replicate 3 (0, .access false)
        ++ (1, .call (.enqueue (some 8))) :: List.replicate 4 (1, .access false)) = some t
      ∧ t.pc 1 = .enqWait (some 8) 1 ∧ t.br.prodTail = 0 := ⟨_, rfl, rfl, rfl⟩
  obtain ⟨t, hrun, hpc, htail⟩ := hrun
  have hreach : Reaches Orderly _ t := (Leads.refl _).runWhile hrun
  exact ⟨_, t, rfl, hreach, hpc, htail,
    progress 2 (by decide) _ rfl t hreach 1 (fun hidle => nomatch hpc.symm.trans hidle)⟩

end CSearch.BufRing
