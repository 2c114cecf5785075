import CSearch.BufRing.Solo

set_option autoImplicit false

/-! # Calls that are overtaken

A call that runs by itself does what `BufRing.Ring` says, wherever the other threads stand
(`run_alone`). This is used here to write down runs for rings of any size.

An enqueue reads `br_prod_head`, finds room and is delayed until the index has gone round once and the
ring is full. Its exchange succeeds, `br_prod_tail` meets `br_cons_tail`, and the ring is empty for
everybody: all its pointers are lost (`lapped_loses`).

A dequeue reads `br_cons_head` and is delayed while another consumer takes a pointer and a producer
adds one, so that `br_prod_tail` has gone round. It returns `NULL` although pointers have been waiting
all the time (`overtaken_misses`).
-/

namespace CSearch.BufRing

variable {ι α : Type} [DecidableEq ι]

/-! ## Calls that run by themselves -/

/-- A call without others in progress. -/
def Call.exec (br : BufRing α) : Call α → Option (BufRing α × Outcome α)
  | .enqueue buf => (br.enqueue buf).map
      (Prod.map id (fun rc => if rc = 0 then .enqueued buf else .dropped buf))
  | .dequeueMc => br.dequeueMc.map
      (Prod.map id (fun p => if br.empty then .nothing else .dequeued p))
  | .dequeueSc => some (Prod.map id
      (fun p => if br.empty then .nothing else .dequeued p) br.dequeueSc)

/-- The state after calls of thread `i` that are over. -/
def State.finish (s : State ι α) (i : ι) (br : BufRing α) (os : List (Outcome α)) : State ι α :=
  { s with br := br, returned := Function.update s.returned i (s.returned i ++ os) }

theorem State.finish_finish (s : State ι α) (i : ι) (br br' : BufRing α) (os os' : List (Outcome α)) :
    (s.finish i br os).finish i br' os' = s.finish i br' (os ++ os') := by
  simp [State.finish]

/-- Thread `i` stands at `pc`. -/
def State.stand (s : State ι α) (i : ι) (pc : Pc α) : State ι α :=
  { s with pc := Function.update s.pc i pc }

/-- A call of thread `i` and its next `n` accesses. -/
def burst (i : ι) (c : Call α) (n : Nat) : List (ι × Act α) :=
  (i, .call c) :: List.replicate n (i, .access false)

theorem State.run_append {s s' s'' : State ι α} {l l' : List (ι × Act α)} (h : s.run l = some s')
    (h' : s'.run l' = some s'') : s.run (l ++ l') = some s'' := by
  induction l generalizing s with
  | nil =>
      rw [← Option.some.inj h] at h'
      exact h'
  | cons x l ih =>
      rw [State.run, Option.bind_eq_some_iff] at h
      obtain ⟨s₁, hstep, hrest⟩ := h
      rw [List.cons_append, State.run, hstep, Option.bind_some]
      exact ih hrest

/-- **A call that runs by itself** ends after six accesses at most, and does what the function does.
The other threads may stand anywhere. -/
theorem run_alone (s : State ι α) (i : ι) (hidle : s.pc i = .idle) (c : Call α) (br : BufRing α)
    (o : Outcome α) (hexec : c.exec s.br = some (br, o)) :
    ∃ n ≤ 6, s.run (burst i c n) = some (s.finish i br [o]) := by
  have hpc : Function.update s.pc i .idle = s.pc := by
    rw [← hidle, Function.update_eq_self]
  cases c with
  | enqueue buf =>
      refine ⟨6, Nat.le_refl 6, ?_⟩
      simp only [Call.exec, enqueue] at hexec
      split at hexec
      · next hfull =>
        cases hexec
        simp [burst, State.run, State.step, hidle, Call.start, List.replicate, access, Effect.to,
          hfull, State.finish, hpc]
      · next hfull =>
        split at hexec
        · cases hexec
        · next htail =>
          cases hexec
          simp [burst, State.run, State.step, hidle, Call.start, List.replicate, access, Effect.to,
            hfull, not_not.mp htail, State.finish, hpc, put]
  | dequeueMc =>
      by_cases hempty : s.br.consHead = s.br.prodTail
      · simp only [Call.exec, dequeueMc, empty, beq_iff_eq, if_pos hempty] at hexec
        cases hexec
        refine ⟨2, by decide, ?_⟩
        simp [burst, State.run, State.step, hidle, Call.start, List.replicate, access, Effect.to,
          hempty, State.finish, hpc]
      · simp only [Call.exec, dequeueMc, empty, beq_iff_eq, if_neg hempty] at hexec
        split at hexec
        · cases hexec
        · next htail =>
          cases hexec
          refine ⟨6, Nat.le_refl 6, ?_⟩
          simp [burst, State.run, State.step, hidle, Call.start, List.replicate, access, Effect.to,
            hempty, not_not.mp htail, State.finish, hpc]
  | dequeueSc =>
      by_cases hempty : s.br.consHead = s.br.prodTail
      · simp only [Call.exec, dequeueSc, empty, beq_iff_eq, if_pos hempty] at hexec
        cases hexec
        refine ⟨2, by decide, ?_⟩
        simp [burst, State.run, State.step, hidle, Call.start, List.replicate, access, Effect.to,
          hempty, State.finish, hpc]
      · simp only [Call.exec, dequeueSc, empty, beq_iff_eq, if_neg hempty] at hexec
        cases hexec
        refine ⟨5, by decide, ?_⟩
        simp [burst, State.run, State.step, hidle, Call.start, List.replicate, access, Effect.to,
          hempty, State.finish, hpc]

section

variable {k c : Nat} {q : Queue α} {br : BufRing α} {s : State ι α} {i : ι}

theorem Rep.exec_enqueue (h : Rep k c q br) (buf : Option α) (hroom : q.items.length < 2 ^ k - 1) :
    ∃ br', (Call.enqueue buf).exec br = some (br', .enqueued buf)
      ∧ Rep k c { q with items := q.items ++ [buf] } br' := by
  have htail : br.prodTail = br.prodHead := UInt32.toNat_inj.mp (h.prodTail.trans h.prodHead.symm)
  refine ⟨_, ?_, h.push buf hroom⟩
  rw [Call.exec, BufRing.enqueue, if_neg (fun he => hroom.ne (h.full_iff.mp he)),
    if_neg (not_not_intro htail)]
  rfl

theorem Rep.exec_dequeueMc {p : Option α} {ps : List (Option α)} {n : Nat}
    (h : Rep k c ⟨p :: ps, n⟩ br) :
    ∃ br', Call.dequeueMc.exec br = some (br', .dequeued p) ∧ Rep k (c + 1) ⟨ps, n⟩ br' := by
  have hne : (p :: ps).length ≠ 0 := Nat.succ_ne_zero _
  have hempty : br.consHead ≠ br.prodTail := fun he => hne (h.empty_iff.mp he)
  have htail : br.consTail = br.consHead := UInt32.toNat_inj.mp (h.consTail.trans h.consHead.symm)
  refine ⟨_, ?_, h.pop hne⟩
  simp only [Call.exec, dequeueMc, empty, beq_iff_eq, if_neg hempty, if_neg (not_not_intro htail),
    h.ring_consHead hne]
  rfl

/-- Enqueues of one thread, as long as there is room. -/
theorem run_enqueues (hidle : s.pc i = .idle) (hrep : Rep k c q s.br) (bufs : List (Option α))
    (hlen : q.items.length + bufs.length ≤ 2 ^ k - 1) :
    ∃ sched br, s.run sched = some (s.finish i br (bufs.map .enqueued))
      ∧ Rep k c { q with items := q.items ++ bufs } br := by
  induction bufs generalizing s q with
  | nil =>
      refine ⟨[], s.br, ?_, ?_⟩
      · simp [State.run, State.finish]
      · rw [List.append_nil]
        exact hrep
  | cons buf bufs ih =>
      rw [List.length_cons] at hlen
      obtain ⟨br₁, hexec, hrep₁⟩ := hrep.exec_enqueue buf (by omega)
      obtain ⟨n, -, hrun⟩ := run_alone s i hidle _ br₁ _ hexec
      have hlen₁ : (q.items ++ [buf]).length + bufs.length ≤ 2 ^ k - 1 := by
        rw [List.length_append, List.length_singleton]
        omega
      obtain ⟨sched, br₂, hrest, hrep₂⟩ :=
        ih (s := s.finish i br₁ [.enqueued buf]) hidle hrep₁ hlen₁
      refine ⟨burst i (.enqueue buf) n ++ sched, br₂, ?_, ?_⟩
      · rw [State.run_append hrun hrest, State.finish_finish]
        rfl
      · rw [List.append_cons]
        exact hrep₂

/-- A dequeue of the first pointer. -/
theorem run_dequeue (hidle : s.pc i = .idle) {p : Option α} {ps : List (Option α)} {n : Nat}
    (hrep : Rep k c ⟨p :: ps, n⟩ s.br) :
    ∃ sched br, s.run sched = some (s.finish i br [.dequeued p]) ∧ Rep k (c + 1) ⟨ps, n⟩ br := by
  obtain ⟨br, hexec, hrep'⟩ := hrep.exec_dequeueMc
  obtain ⟨m, -, hrun⟩ := run_alone s i hidle _ br _ hexec
  exact ⟨_, br, hrun, hrep'⟩

end

/-! ## A whole revolution -/

section

variable {k : Nat} {s : State ι α} {i j : ι} {y : Option α} {ys : List (Option α)}

/-- The ring is full, thread `j` takes the first pointer out, and `i` fills it again. The index of the
producers is then what it was when the ring was new. -/
theorem run_lap (hi : s.pc i = .idle) (hj : s.pc j = .idle) (hrep : Rep k 0 ⟨y :: ys, 0⟩ s.br)
    (hys : ys.length + 2 = 2 ^ k) (z : Option α) :
    ∃ sched br br', s.run sched
        = some ((s.finish j br' [.dequeued y]).finish i br [.enqueued z])
      ∧ Rep k 1 ⟨ys ++ [z], 0⟩ br ∧ br.prodHead = 0 ∧ br.prodTail = 0 := by
  obtain ⟨take, br₁, htake, hrep₁⟩ := run_dequeue hj hrep
  have hroom : ys.length + [z].length ≤ 2 ^ k - 1 := by
    rw [List.length_singleton]
    omega
  obtain ⟨add, br₂, hadd, hrep₂⟩ :=
    run_enqueues (s := s.finish j br₁ [.dequeued y]) hi hrep₁ [z] hroom
  have hsum : 1 + (ys ++ [z]).length = 2 ^ k := by
    rw [List.length_append, List.length_singleton]
    omega
  refine ⟨take ++ add, br₂, br₁, State.run_append htake hadd, hrep₂, ?_, ?_⟩
  · rw [← UInt32.toNat_inj, hrep₂.prodHead, hsum, Nat.mod_self]
    rfl
  · rw [← UInt32.toNat_inj, hrep₂.prodTail, hsum, Nat.mod_self]
    rfl

/-- An enqueue up to its exchange. -/
theorem run_enqueue_delayed (hi : s.pc i = .idle) (x : Option α)
    (hroom : next s.br.prodMask s.br.prodHead ≠ s.br.consTail) :
    s.run (burst i (.enqueue x) 2)
      = some (s.stand i (.enqCas x s.br.prodHead)) := by
  simp [State.stand, burst, State.run, State.step, hi, Call.start, List.replicate, access, Effect.to, hroom]

/-- The rest of that enqueue after a lap: the ring is full, and looks empty afterwards. -/
theorem run_enqueue_lapped {x : Option α} {q : Queue α} (hi : s.pc i = .enqCas x 0)
    (hrep : Rep k 1 q s.br) (hhead : s.br.prodHead = 0) (htail : s.br.prodTail = 0) :
    ∃ br, s.run (List.replicate 4 (i, .access false))
        = some ((s.stand i .idle).finish i br [.enqueued x])
      ∧ Rep k 1 ⟨[], q.dropped⟩ br := by
  have hnext : (next s.br.prodMask 0).toNat = 1 % 2 ^ k := by
    have hzero : UInt32.toNat 0 = 0 % 2 ^ k := (Nat.zero_mod _).symm
    rw [hrep.sized.prodMask, next_toNat hrep.sized.le hzero]
  refine ⟨{ (s.br.put 0 x) with
    prodHead := next s.br.prodMask 0, prodTail := next s.br.prodMask 0 }, ?_, ?_⟩
  · simp [State.run, State.step, hi, List.replicate, access, Effect.to, hhead, htail, put,
      State.finish, State.stand]
  · exact ⟨⟨hrep.sized.le, hrep.sized.prodSize, hrep.sized.prodMask, hrep.sized.consMask⟩,
      hrep.consHead, hrep.consTail, hnext, hnext, Nat.two_pow_pos k,
      fun j p hp => absurd hp (by simp), hrep.drops⟩

end

/-- **A delayed enqueue empties the ring.** Thread `a` is delayed before its exchange while `b` fills
the ring, `c` takes one pointer out, and `b` fills it again. All these calls succeed. When `a` goes
on, its call succeeds as well, and from then on the ring is that of an empty queue: `2 ^ k` pointers
are lost. -/
theorem lapped_loses (k : Nat) (hk : k ≤ 30) (br : BufRing α)
    (halloc : alloc (Int32.ofNat (2 ^ k)) true = some br) (a b c : ι) (hab : a ≠ b) (hac : a ≠ c)
    (hbc : b ≠ c) (x y z : Option α) (ys : List (Option α)) (hys : ys.length + 2 = 2 ^ k) :
    ∃ sched s, (State.init br).run sched = some s ∧ (∀ i, s.pc i = .idle)
      ∧ s.returned a = [.enqueued x] ∧ s.returned b = (y :: ys ++ [z]).map .enqueued
      ∧ s.returned c = [.dequeued y]
      ∧ ∀ ops, ∃ br', s.br.execAll ops
          = some (br', ((Queue.mk [] 0).execAll (2 ^ k - 1) ops).2) := by
  have hrep := rep_of_alloc hk halloc
  have hzero : br.prodHead = 0 := by
    rw [← UInt32.toNat_inj, hrep.prodHead]
    exact Nat.zero_mod _
  -- `a` finds room in the new ring
  have hdelayed := run_enqueue_delayed (s := State.init br) (i := a) rfl x
    (fun hfull => absurd (hrep.full_iff.mp hfull) (show ¬ 0 = 2 ^ k - 1 by omega))
  rw [show (State.init br : State ι α).br.prodHead = 0 from hzero] at hdelayed
  have hpc : ∀ i, i ≠ a → ((State.init br).stand a (.enqCas x 0)).pc i = .idle :=
    fun i hi => Function.update_of_ne hi _ _
  have ha : ((State.init br).stand a (.enqCas x 0)).pc a = .enqCas x 0 :=
    Function.update_self _ _ _
  -- `b` fills it
  have hroom : (y :: ys).length ≤ 2 ^ k - 1 := by
    rw [List.length_cons]
    omega
  obtain ⟨fill, br₁, hfill, hrep₁⟩ := run_enqueues (hpc b hab.symm) hrep (y :: ys)
    ((Nat.zero_add _).trans_le hroom)
  -- `c` takes one out, and `b` adds one
  obtain ⟨lap, br₂, br', hlap, hrep₂, hhead, htail⟩ :=
    run_lap (i := b) (j := c)
      (s := ((State.init br).stand a (.enqCas x 0)).finish b br₁ ((y :: ys).map .enqueued))
      (hpc b hab.symm) (hpc c hac.symm) hrep₁ hys z
  -- `a` goes on
  obtain ⟨br₃, hresumed, hrep₃⟩ := run_enqueue_lapped (i := a) (x := x)
    (s := ((((State.init br).stand a (.enqCas x 0)).finish b br₁ ((y :: ys).map .enqueued)).finish c
      br' [.dequeued y]).finish b br₂ [.enqueued z])
    ha hrep₂ hhead htail
  have hrun := State.run_append hdelayed
    (State.run_append hfill (State.run_append hlap hresumed))
  refine ⟨_, _, hrun, fun i => ?_, ?_, ?_, ?_, fun ops => ?_⟩
  · simp [State.finish, State.stand, State.init]
  · simp [State.finish, State.stand, State.init, hab, hac]
  · simp [State.finish, State.stand, State.init, hab.symm, hbc]
  · simp [State.finish, State.stand, State.init, hac.symm, hbc.symm]
  · obtain ⟨br', -, hexec, -⟩ := hrep₃.execAll ops
    exact ⟨br', hexec⟩

/-- A ring of two slots loses two pointers. -/
theorem lapped_loses_two_slots :
    ∃ (br : BufRing Nat) (sched : List (Fin 3 × Act Nat)) (s : State (Fin 3) Nat),
      (State.init br).run sched = some s
      ∧ s.returned 0 = [.enqueued (some 9)] ∧ s.returned 1 = [.enqueued (some 7), .enqueued (some 8)]
      ∧ s.returned 2 = [.dequeued (some 7)]
      ∧ ∃ br', s.br.execAll [.count, .dequeueMc] = some (br', [.int 0, .ptr none]) := by
  obtain ⟨sched, s, hrun, -, ha, hb, hc, hexec⟩ := lapped_loses (ι := Fin 3) 1 (by decide)
    ⟨0, 0, 2, 1, 0, 0, 0, 2, 1, fun _ => none⟩ rfl 0 1 2 (by decide) (by decide) (by decide)
    (some 9) (some 7) (some 8) [] rfl
  exact ⟨_, sched, s, hrun, ha, hb, hc, hexec [.count, .dequeueMc]⟩

/-- **A dequeue that is overtaken returns `NULL` although pointers are waiting.** Thread `p` has filled
the ring. Thread `c` reads `br_cons_head` and is delayed while `d` takes one pointer out and `p` adds
one. When `c` goes on, it returns `NULL`; the pointers `ys` were in the ring when its call began and
still are. -/
theorem overtaken_misses (k : Nat) (hk : k ≤ 30) (br : BufRing α)
    (halloc : alloc (Int32.ofNat (2 ^ k)) true = some br) (p c d : ι) (hpc : p ≠ c) (hpd : p ≠ d)
    (hcd : c ≠ d) (y z : Option α) (ys : List (Option α)) (hys : ys.length + 2 = 2 ^ k) :
    ∃ before during s₀ s, (State.init br).run before = some s₀ ∧ s₀.run during = some s
      ∧ (∀ i, s₀.pc i = .idle) ∧ s₀.returned p = (y :: ys).map .enqueued ∧ s₀.returned c = []
      ∧ s₀.returned d = [] ∧ (∀ i, s.pc i = .idle) ∧ s.returned c = [.nothing]
      ∧ s.returned d = [.dequeued y] ∧ s.returned p = (y :: ys ++ [z]).map .enqueued
      ∧ ∀ ops, ∃ br', s.br.execAll ops
          = some (br', ((Queue.mk (ys ++ [z]) 0).execAll (2 ^ k - 1) ops).2) := by
  have hrep := rep_of_alloc hk halloc
  have hroom : (y :: ys).length ≤ 2 ^ k - 1 := by
    rw [List.length_cons]
    omega
  -- `p` fills the ring
  obtain ⟨fill, br₁, hfill, hrep₁⟩ := run_enqueues (s := State.init br) (i := p) rfl hrep (y :: ys)
    ((Nat.zero_add _).trans_le hroom)
  have hzero : br₁.consHead = 0 := by
    rw [← UInt32.toNat_inj, hrep₁.consHead]
    exact Nat.zero_mod _
  obtain ⟨s₀, hs₀⟩ : ∃ s₀, s₀ = (State.init br).finish p br₁ ((y :: ys).map .enqueued) := ⟨_, rfl⟩
  -- `c` reads the index
  have hread : s₀.run (burst c .dequeueMc 1) = some (s₀.stand c (.deqTail 0)) := by
    simp [hs₀, burst, State.run, State.step, State.finish, State.init, Call.start, State.stand,
      List.replicate, access, hzero]
  have hidle : ∀ i, i ≠ c → (s₀.stand c (.deqTail 0)).pc i = .idle := by
    intro i hi
    rw [hs₀]
    exact Function.update_of_ne hi _ _
  -- `d` takes one out, and `p` adds one
  obtain ⟨lap, br₂, br', hlap, hrep₂, -, htail⟩ := run_lap (s := s₀.stand c (.deqTail 0))
    (hidle p hpc) (hidle d hcd.symm) (by rw [hs₀]; exact hrep₁) hys z
  -- `c` compares
  obtain ⟨s₁, hs₁⟩ : ∃ s₁, s₁ = ((s₀.stand c (.deqTail 0)).finish d br' [.dequeued y]).finish p br₂
    [.enqueued z] := ⟨_, rfl⟩
  have hnull : s₁.run [(c, .access false)] = some ((s₁.stand c .idle).finish c br₂ [.nothing]) := by
    simp [hs₁, State.run, State.step, State.finish, State.stand, access, htail]
  rw [← hs₀] at hfill
  rw [← hs₁] at hlap
  refine ⟨fill, _, s₀, _, hfill, State.run_append hread (State.run_append hlap hnull), ?_⟩
  simp only [hs₁, hs₀]
  refine ⟨fun i => rfl, ?_, ?_, ?_, fun i => ?_, ?_, ?_, ?_, fun ops => ?_⟩
  · simp [State.finish, State.init]
  · simp [State.finish, State.init, hpc.symm]
  · simp [State.finish, State.init, hpd.symm]
  · simp [State.finish, State.stand, State.init]
  · simp [State.finish, State.stand, State.init, hpc.symm, hcd]
  · simp [State.finish, State.stand, State.init, hpd.symm, hcd.symm]
  · simp [State.finish, State.stand, State.init, hpc, hpd]
  · obtain ⟨br', -, hexec, -⟩ := hrep₂.execAll ops
    exact ⟨br', hexec⟩

/-- In a ring of four slots two pointers wait. -/
theorem overtaken_misses_four_slots :
    ∃ (br : BufRing Nat) (during : List (Fin 3 × Act Nat)) (s₀ s : State (Fin 3) Nat),
      alloc (Int32.ofNat (2 ^ 2)) true = some br ∧ s₀.run during = some s
      ∧ s₀.returned 0 = [.enqueued (some 5), .enqueued (some 6), .enqueued (some 7)]
      ∧ s.returned 1 = [.nothing] ∧ s.returned 2 = [.dequeued (some 5)]
      ∧ ∃ br', s.br.execAll [.count, .dequeueMc] = some (br', [.int 3, .ptr (some 6)]) := by
  obtain ⟨before, during, s₀, s, -, hrun, -, hfilled, -, -, -, hnull, htaken, -, hexec⟩ :=
    overtaken_misses (ι := Fin 3) 2 (by decide) ⟨0, 0, 4, 3, 0, 0, 0, 4, 3, fun _ => none⟩ rfl 0 1 2
      (by decide) (by decide) (by decide) (some 5) (some 8) [some 6, some 7] rfl
  exact ⟨_, during, s₀, s, rfl, hrun, hfilled, hnull, htaken, hexec [.count, .dequeueMc]⟩

end CSearch.BufRing
