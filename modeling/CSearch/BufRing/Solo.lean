import CSearch.BufRing.Fifo

set_option autoImplicit false

/-! # One producer and one consumer

If one thread only enqueues and one thread only dequeues, nobody can fall behind: a thread that has
read its index is the only one to move it. So every run is orderly (`Solo.orderly`), and the results
hold without a condition on the run (`spsc`). With two consumers `NULL` may be returned while pointers
are waiting; with one it is not (`spsc_null`).
-/

namespace CSearch.BufRing

variable {ι α : Type}

/-! ## The phases of a call -/

/-- A call starts an attempt, tries to take a ticket, and holds one; an enqueue may also give up. -/
inductive Phase
  | idle
  | enqStart
  | enqTry
  | enqHold
  | drop
  | deqStart
  | deqTry
  | deqHold
  | scStart
  | scTry
  | scHold

def Pc.phase : Pc α → Phase
  | .idle => .idle
  | .enqHead _ => .enqStart
  | .enqTail _ _ | .enqHeadAgain _ _ _ | .enqTailAgain _ _ _ | .enqCas _ _ => .enqTry
  | .dropsLoad _ | .dropsStore _ _ => .drop
  | .enqStore _ _ | .enqWait _ _ | .enqPublish _ _ => .enqHold
  | .deqHead => .deqStart
  | .deqTail _ | .deqCas _ => .deqTry
  | .deqLoad _ | .deqWait _ _ | .deqPublish _ _ => .deqHold
  | .scHead => .scStart
  | .scTail _ | .scClaim _ => .scTry
  | .scLoad _ | .scPublish _ _ => .scHold

/-- The phase is one of an enqueue. -/
def Phase.producing : Phase → Bool
  | .enqStart | .enqTry | .enqHold | .drop => true
  | _ => false

/-- The phase is one of a dequeue. -/
def Phase.consuming : Phase → Bool
  | .deqStart | .deqTry | .deqHold | .scStart | .scTry | .scHold => true
  | _ => false

/-- How an access leads from one phase to another, and what it means for the tickets. -/
inductive Phase.Next : Phase → Mark α → Phase → Prop
  | enqRead : Next .enqStart .sawProdHead .enqTry
  | enqLook : Next .enqTry .none .enqTry
  | enqRetry : Next .enqTry .none .enqStart
  | enqGiveUp : Next .enqTry .none .drop
  | enqTake (buf : Option α) : Next .enqTry (.tookProd buf) .enqHold
  | enqWork : Next .enqHold .none .enqHold
  | enqGive : Next .enqHold .gaveProd .idle
  | drop : Next .drop .none .drop
  | dropped : Next .drop .none .idle
  | deqRead : Next .deqStart .sawConsHead .deqTry
  | deqLook : Next .deqTry .none .deqTry
  | deqRetry : Next .deqTry .none .deqStart
  | deqNothing : Next .deqTry .none .idle
  | deqTake : Next .deqTry .tookCons .deqHold
  | deqWork : Next .deqHold .none .deqHold
  | deqGive : Next .deqHold .gaveCons .idle
  | scRead : Next .scStart .sawConsHead .scTry
  | scLook : Next .scTry .none .scTry
  | scNothing : Next .scTry .none .idle
  | scTake : Next .scTry .tookCons .scHold
  | scWork : Next .scHold .none .scHold
  | scGive : Next .scHold .gaveCons .idle

theorem access_phase (br : BufRing α) (weak : Bool) {pc : Pc α} (hidle : pc ≠ .idle) :
    Phase.Next pc.phase (access br weak pc).mark (access br weak pc).pc.phase := by
  cases pc with
  | idle => exact absurd rfl hidle
  | enqHead b => exact .enqRead
  | enqTail b g => rw [access]; split <;> exact .enqLook
  | enqHeadAgain b g c => rw [access]; split <;> exact .enqLook
  | enqTailAgain b g c =>
      rw [access]
      split
      · exact .enqGiveUp
      · exact .enqLook
  | dropsLoad b => exact .drop
  | dropsStore b d => exact .dropped
  | enqCas b g =>
      rw [access]
      split
      · exact .enqTake b
      · exact .enqRetry
  | enqStore b g => exact .enqWork
  | enqWait b g => rw [access]; split <;> exact .enqWork
  | enqPublish b g => exact .enqGive
  | deqHead => exact .deqRead
  | deqTail g =>
      rw [access]
      split
      · exact .deqNothing
      · exact .deqLook
  | deqCas g =>
      rw [access]
      split
      · exact .deqTake
      · exact .deqRetry
  | deqLoad g => exact .deqWork
  | deqWait g b => rw [access]; split <;> exact .deqWork
  | deqPublish g b => exact .deqGive
  | scHead => exact .scRead
  | scTail g =>
      rw [access]
      split
      · exact .scNothing
      · exact .scLook
  | scClaim g => exact .scTake
  | scLoad g => exact .scWork
  | scPublish g b => exact .scGive

theorem Pc.consuming_eq (pc : Pc α) : pc.consuming = pc.phase.consuming := by
  cases pc <;> rfl

theorem Pc.consuming_of_single {pc : Pc α} (h : pc.single = true) : pc.consuming = true := by
  cases pc with
  | scHead => rfl
  | scTail g => rfl
  | scClaim g => rfl
  | scLoad g => rfl
  | scPublish g b => rfl
  | _ => cases h

/-! ## Every run is orderly -/

/-- Thread `p` is the only one to enqueue, `c` the only one to dequeue, and whoever tries to take a
ticket has seen the next one. -/
structure Solo (p c : ι) (t : Traced ι α) : Prop where
  producer : ∀ i, (t.pc i).phase.producing = true → i = p
  consumer : ∀ i, (t.pc i).phase.consuming = true → i = c
  seenEnq : ∀ i, (t.pc i).phase = .enqTry → t.seen i = t.enq.head
  seenDeq : ∀ i, (t.pc i).phase = .deqTry → t.seen i = t.deq.head
  enqBy : ∀ x ∈ t.enq.claims, x.1 = p
  deqBy : ∀ x ∈ t.deq.claims, x.1 = c

theorem Solo.behind_eq {p c : ι} {t : Traced ι α} (h : Solo p c t) (i : ι) : t.behind i = 0 := by
  have henq := h.seenEnq i
  have hdeq := h.seenDeq i
  unfold Traced.behind
  split
  · next hpc => rw [henq (by rw [hpc]; rfl), Nat.sub_self]
  · next hpc => rw [henq (by rw [hpc]; rfl), Nat.sub_self]
  · next hpc => rw [henq (by rw [hpc]; rfl), Nat.sub_self]
  · next hpc => rw [henq (by rw [hpc]; rfl), Nat.sub_self]
  · next hpc => rw [hdeq (by rw [hpc]; rfl), Nat.sub_self]
  · next hpc => rw [hdeq (by rw [hpc]; rfl), Nat.sub_self]
  · rfl

theorem Solo.alone {p c : ι} {t : Traced ι α} (h : Solo p c t) : Alone t := by
  intro i j hsc hj
  have hi := Pc.consuming_of_single hsc
  rw [Pc.consuming_eq] at hi hj
  rw [h.consumer i hi, h.consumer j hj]

/-- Every step is orderly. -/
theorem Solo.orderly {p c : ι} {t t' : Traced ι α} (h : Solo p c t) (h' : Solo p c t')
    (hpos : 0 < slots t.br) (i : ι) : Orderly t i t' where
  fresh := by
    intro _
    rw [h.behind_eq]
    exact hpos
  alone := h'.alone

/-- The calls that thread `i` may make. -/
def Allowed (p c i : ι) : Act α → Prop
  | .call (.enqueue _) => i = p
  | .call .dequeueMc | .call .dequeueSc => i = c
  | .access _ => True

section

variable [DecidableEq ι] {p c i : ι} {t t' : Traced ι α}

theorem Solo.begin (h : Solo p c t) {call : Call α} (hallowed : Allowed p c i (.call call)) :
    Solo p c (t.begin i call) := by
  have hstart : call.start.phase ≠ .enqTry ∧ call.start.phase ≠ .deqTry := by
    cases call <;> exact ⟨nofun, nofun⟩
  have hpc : ∀ j, (t.begin i call).pc j = if j = i then call.start else t.pc j :=
    Function.update_apply t.pc i call.start
  refine ⟨fun j hj => ?_, fun j hj => ?_, fun j hj => ?_, fun j hj => ?_, h.enqBy, h.deqBy⟩
  · rw [hpc] at hj
    split at hj
    · next hji =>
      cases call with
      | enqueue b => exact hji.trans hallowed
      | dequeueMc => cases hj
      | dequeueSc => cases hj
    · exact h.producer j hj
  · rw [hpc] at hj
    split at hj
    · next hji =>
      cases call with
      | enqueue b => cases hj
      | dequeueMc => exact hji.trans hallowed
      | dequeueSc => exact hji.trans hallowed
    · exact h.consumer j hj
  · rw [hpc] at hj
    split at hj
    · exact absurd hj hstart.1
    · exact h.seenEnq j hj
  · rw [hpc] at hj
    split at hj
    · exact absurd hj hstart.2
    · exact h.seenDeq j hj

namespace Phase.Next

variable {old new : Phase} {mark : Mark α} {g : Ghost ι α} {j : ι}

omit [DecidableEq ι] in
theorem producing (h : Next old mark new) (hnew : new.producing = true) : old.producing = true := by
  cases h <;> first | rfl | cases hnew

omit [DecidableEq ι] in
theorem consuming (h : Next old mark new) (hnew : new.consuming = true) : old.consuming = true := by
  cases h <;> first | rfl | cases hnew

/-- A thread that goes on to try for a ticket has seen the next one. -/
theorem seenEnq (h : Next old mark new) (hnew : new = .enqTry)
    (hold : old = .enqTry → g.seen i = g.enq.head) :
    (g.note i mark).seen i = (g.note i mark).enq.head := by
  cases h <;> first | exact Function.update_self _ _ _ | exact hold rfl | cases hnew

theorem seenDeq (h : Next old mark new) (hnew : new = .deqTry)
    (hold : old = .deqTry → g.seen i = g.deq.head) :
    (g.note i mark).seen i = (g.note i mark).deq.head := by
  cases h <;> first | exact Function.update_self _ _ _ | exact hold rfl | cases hnew

/-- Another thread that has seen the next ticket still has, unless `i` is a producer too. -/
theorem seenEnq_of_ne (h : Next old mark new) (hji : j ≠ i) (hold : old.producing = false)
    (hseen : g.seen j = g.enq.head) : (g.note i mark).seen j = (g.note i mark).enq.head := by
  cases h with
  | enqTake buf => cases hold
  | enqRead => cases hold
  | deqRead => exact (Function.update_of_ne hji _ _).trans hseen
  | scRead => exact (Function.update_of_ne hji _ _).trans hseen
  | _ => exact hseen

theorem seenDeq_of_ne (h : Next old mark new) (hji : j ≠ i) (hold : old.consuming = false)
    (hseen : g.seen j = g.deq.head) : (g.note i mark).seen j = (g.note i mark).deq.head := by
  cases h with
  | deqTake => cases hold
  | scTake => cases hold
  | deqRead => cases hold
  | scRead => cases hold
  | enqRead => exact (Function.update_of_ne hji _ _).trans hseen
  | _ => exact hseen

/-- Only a producer takes a ticket for an enqueue. -/
theorem enqBy (h : Next old mark new) (hold : old.producing = true → i = p)
    (hby : ∀ x ∈ g.enq.claims, x.1 = p) : ∀ x ∈ (g.note i mark).enq.claims, x.1 = p := by
  cases h with
  | enqTake buf =>
      exact List.forall_mem_append.mpr ⟨hby, List.forall_mem_singleton.mpr (hold rfl)⟩
  | _ => exact hby

theorem deqBy (h : Next old mark new) (hold : old.consuming = true → i = c)
    (hby : ∀ x ∈ g.deq.claims, x.1 = c) : ∀ x ∈ (g.note i mark).deq.claims, x.1 = c := by
  cases h with
  | deqTake => exact List.forall_mem_append.mpr ⟨hby, List.forall_mem_singleton.mpr (hold rfl)⟩
  | scTake => exact List.forall_mem_append.mpr ⟨hby, List.forall_mem_singleton.mpr (hold rfl)⟩
  | _ => exact hby

end Phase.Next

/-- An access of thread `i`: nobody else tries for the ticket that it takes. -/
theorem Solo.after (h : Solo p c t) {e : Effect α}
    (hnext : Phase.Next (t.pc i).phase e.mark e.pc.phase) : Solo p c (t.after i e) := by
  have hpc : ∀ j, (t.after i e).pc j = if j = i then e.pc else t.pc j :=
    Function.update_apply t.pc i e.pc
  refine ⟨fun j hj => ?_, fun j hj => ?_, fun j hj => ?_, fun j hj => ?_,
    hnext.enqBy (h.producer i) h.enqBy, hnext.deqBy (h.consumer i) h.deqBy⟩
  · rw [hpc] at hj
    split at hj
    · next hji => exact hji.trans (h.producer i (hnext.producing hj))
    · exact h.producer j hj
  · rw [hpc] at hj
    split at hj
    · next hji => exact hji.trans (h.consumer i (hnext.consuming hj))
    · exact h.consumer j hj
  · show (t.toGhost.note i e.mark).seen j = (t.toGhost.note i e.mark).enq.head
    rw [hpc] at hj
    split at hj
    · next hji =>
      subst hji
      exact hnext.seenEnq hj (h.seenEnq j)
    · next hji =>
      have hj' := h.producer j (by rw [hj]; rfl)
      refine hnext.seenEnq_of_ne hji ?_ (h.seenEnq j hj)
      exact Bool.eq_false_iff.mpr (fun hold => hji (hj'.trans (h.producer i hold).symm))
  · show (t.toGhost.note i e.mark).seen j = (t.toGhost.note i e.mark).deq.head
    rw [hpc] at hj
    split at hj
    · next hji =>
      subst hji
      exact hnext.seenDeq hj (h.seenDeq j)
    · next hji =>
      have hj' := h.consumer j (by rw [hj]; rfl)
      refine hnext.seenDeq_of_ne hji ?_ (h.seenDeq j hj)
      exact Bool.eq_false_iff.mpr (fun hold => hji (hj'.trans (h.consumer i hold).symm))

theorem Solo.step {a : Act α} (h : Solo p c t) (hallowed : Allowed p c i a)
    (hstep : t.step i a = some t') : Solo p c t' := by
  cases a with
  | call call =>
      simp only [Traced.step] at hstep
      split at hstep
      · rw [← Option.some.inj hstep]
        exact h.begin hallowed
      · cases hstep
  | access weak =>
      rcases step_cases hstep with ⟨call, hidle, -⟩ | ⟨weak', hidle, rfl⟩
      · simp only [Traced.step, hidle] at hstep
        cases hstep
      · exact h.after (access_phase t.br weak' hidle)

omit [DecidableEq ι] in
theorem solo_init (br : BufRing α) : Solo p c (Traced.init br) where
  producer := nofun
  consumer := nofun
  seenEnq := nofun
  seenDeq := nofun
  enqBy := nofun
  deqBy := nofun

/-- A run in which only `p` enqueues and only `c` dequeues can be followed with tickets, and is
orderly. -/
theorem Solo.reaches {k : Nat} {br : BufRing α} (hrep : Rep k 0 ⟨[], 0⟩ br) (h : Solo p c t)
    (hreach : Reaches Orderly br t) {sched : List (ι × Act α)}
    (hallowed : ∀ x ∈ sched, Allowed p c x.1 x.2)
    {s : State ι α} (hrun : t.toState.run sched = some s) :
    ∃ t', t'.toState = s ∧ Reaches Orderly br t' ∧ Solo p c t' := by
  induction sched generalizing t with
  | nil => exact ⟨t, Option.some.inj hrun, hreach, h⟩
  | cons x sched ih =>
      obtain ⟨i, a⟩ := x
      rw [List.forall_mem_cons] at hallowed
      rw [State.run, ← step_toState, Option.bind_eq_some_iff] at hrun
      obtain ⟨s', hs', hrun'⟩ := hrun
      obtain ⟨t', ht', rfl⟩ := Option.map_eq_some_iff.mp hs'
      have hsolo := h.step hallowed.1 ht'
      have hpos : 0 < slots t.br := by
        rw [(reaches_inv hrep hreach).1.shared.sized.slots_eq]
        exact Nat.two_pow_pos k
      exact ih hsolo (hreach.step ht' (h.orderly hsolo hpos i)) hallowed.2 hrun'

/-! ## The queue of one producer and one consumer -/

theorem Solo.items_eq (h : Solo p c t) :
    t.enq.itemsOf p = t.enq.items ∧ t.deq.itemsOf c = t.deq.items := by
  constructor
  · rw [Turnstile.itemsOf, List.filter_eq_self.mpr (fun x hx => decide_eq_true (h.enqBy x hx))]
    rfl
  · rw [Turnstile.itemsOf, List.filter_eq_self.mpr (fun x hx => decide_eq_true (h.deqBy x hx))]
    rfl

/-- The producer's finished enqueues are the tickets handed back. -/
theorem Solo.enqueuedOf_eq {k : Nat} (h : Solo p c t) (hinv : Inv k t) :
    enqueuedOf (t.returned p) = t.enq.items.take t.enq.done := by
  have hown := (hinv.own p).enqueued
  have hitems : t.view.enq.itemsOf p = t.enq.items := h.items_eq.1
  rw [hitems] at hown
  have hlen : t.enq.items.length = t.enq.head := Turnstile.items_length
  -- all tickets that are held are held by `p`, which holds one at most
  have hheld : ∀ n, t.enq.done ≤ n → n < t.enq.head → n = t.seen p ∧ (t.pc p).holdsEnq = true := by
    intro n hle hlt
    have hget : t.enq.claims[n]? = some (t.enq.claims.get ⟨n, hlt⟩) := List.getElem?_eq_getElem hlt
    have hp := h.enqBy _ (List.get_mem t.enq.claims ⟨n, hlt⟩)
    exact (hinv.own p).enqHeld n (t.enq.claims.get ⟨n, hlt⟩).2 ⟨hle, by rw [← hp]; exact hget⟩
  cases hholds : (t.pc p).holdsEnq with
  | false =>
      have hdone : t.enq.done = t.enq.head := by
        by_contra hne
        have hlt := Nat.lt_of_le_of_ne hinv.shared.enq_le hne
        rw [(hheld _ (Nat.le_refl _) hlt).2] at hholds
        cases hholds
      rw [hholds] at hown
      rw [hdone, ← hlen, List.take_length, ← hown]
      exact (List.append_nil _).symm
  | true =>
      obtain ⟨b, hb⟩ := (hinv.own p).ok.enq_held hholds
      rw [hholds, pending_held hb] at hown
      have hle : t.enq.done ≤ t.seen p := hb.1
      have hlt : t.seen p < t.enq.head := hb.lt
      have hfirst := (hheld t.enq.done (Nat.le_refl _) (by omega)).1
      have hlast := (hheld (t.enq.head - 1) (by omega) (by omega)).1
      have hcount := congrArg List.length hown
      rw [List.length_append, List.length_singleton, hlen] at hcount
      rw [show t.enq.done = (enqueuedOf (t.returned p)).length by omega, ← hown, List.take_left]

/-- What the consumer has got is the beginning of the pointers that are its to get. -/
theorem Inv.dequeuedOf_prefix_items {k : Nat} (h : Inv k t) (hitems : t.deq.itemsOf c = t.deq.items) :
    dequeuedOf (t.returned c) <+: t.deq.items := by
  rw [← hitems]
  rw [h.history.dequeued c]
  exact List.prefix_append _ _

/-- **One producer, one consumer, any interleaving**: what the consumer has got is, in order, the
beginning of what the finished calls of the producer have put in. -/
theorem spsc (k : Nat) (hk : k ≤ 30) (br : BufRing α)
    (halloc : alloc (Int32.ofNat (2 ^ k)) true = some br) (p c : ι) (sched : List (ι × Act α))
    (hallowed : ∀ x ∈ sched, Allowed p c x.1 x.2) (s : State ι α)
    (hrun : (State.init br).run sched = some s) :
    dequeuedOf (s.returned c) <+: enqueuedOf (s.returned p) := by
  have hrep := rep_of_alloc hk halloc
  obtain ⟨t, rfl, hreach, hsolo⟩ := (solo_init br).reaches hrep (.refl _) hallowed hrun
  have hinv := (reaches_inv hrep hreach).1
  refine (hinv.dequeuedOf_prefix_items hsolo.items_eq.2).trans ?_
  -- a ticket of the consumer is taken only after that of the producer has been handed back
  rw [hsolo.enqueuedOf_eq hinv, hinv.shared.items]
  exact List.take_prefix_take_left hinv.shared.le

/-- The consumer has got the first of two pointers, and the second enqueue is in progress. -/
theorem spsc_handover :
    ∃ (br : BufRing Nat) (s : State (Fin 2) Nat), alloc (Int32.ofNat (2 ^ 2)) true = some br
      ∧ dequeuedOf (s.returned 1) = [some 7] ∧ s.pc 0 = .enqWait (some 8) 1
      ∧ dequeuedOf (s.returned 1) <+: enqueuedOf (s.returned 0) := by
  have hrun : ∃ s : State (Fin 2) Nat,
      (State.init ⟨0, 0, 4, 3, 0, 0, 0, 4, 3, fun _ => none⟩).run
      ((0, .call (.enqueue (some 7))) :: List.replicate 6 (0, .access false)
        ++ (0, .call (.enqueue (some 8))) :: List.replicate 4 (0, .access false)
        ++ (1, .call .dequeueMc) :: List.replicate 6 (1, .access false)) = some s
      ∧ dequeuedOf (s.returned 1) = [some 7] ∧ s.pc 0 = .enqWait (some 8) 1 := ⟨_, rfl, rfl, rfl⟩
  obtain ⟨s, hrun, hgot, hpc⟩ := hrun
  refine ⟨_, s, rfl, hgot, hpc, spsc 2 (by decide) _ rfl 0 1 _ ?_ s hrun⟩
  simp [Allowed]

/-- **One consumer never misses a pointer**: when a dequeue returns `NULL`, the consumer has got
everything whose enqueue was over. -/
theorem spsc_null (k : Nat) (hk : k ≤ 30) (br : BufRing α)
    (halloc : alloc (Int32.ofNat (2 ^ k)) true = some br) (p c : ι) (sched : List (ι × Act α))
    (hallowed : ∀ x ∈ sched, Allowed p c x.1 x.2) (s s' : State ι α)
    (hrun : (State.init br).run sched = some s) (weak : Bool)
    (hstep : s.step c (.access weak) = some s')
    (hnull : s'.returned c = s.returned c ++ [.nothing]) :
    dequeuedOf (s.returned c) = enqueuedOf (s.returned p) := by
  have hrep := rep_of_alloc hk halloc
  obtain ⟨t, rfl, hreach, hsolo⟩ := (solo_init br).reaches hrep (.refl _) hallowed hrun
  have hinv := (reaches_inv hrep hreach).1
  rw [← step_toState] at hstep
  obtain ⟨t', ht', rfl⟩ := Option.map_eq_some_iff.mp hstep
  obtain ⟨weak', -, hout⟩ := step_returns ht' hnull
  obtain ⟨g, hpc, hg⟩ := access_out hout
  -- the consumer has seen the next ticket, and its index is that of the last one handed back
  have hseen : g.toNat = t.deq.head % 2 ^ k ∧ (t.pc c).holdsDeq = false := by
    rcases hpc with hpc | hpc
    · have hn := hsolo.seenDeq c (by rw [hpc]; rfl)
      rw [← hn, hpc]
      exact ⟨(hinv.ok_of hpc).1, rfl⟩
    · have hok := hinv.ok_of hpc
      have hn : t.seen c = t.deq.head := hok.2
      rw [← hn, hpc]
      exact ⟨hok.1, rfl⟩
  have hs := hinv.shared
  have hroom := hs.room
  have hle := hs.le
  have hdone : t.deq.head = t.enq.done := by
    have hdeq := hs.deq_le
    have henq := hs.enq_le
    refine eq_of_mod_eq (l := t.deq.head) (Nat.le_refl _)
      (Nat.lt_add_of_pos_right (Nat.two_pow_pos k)) hle (by omega) ?_
    rw [← hseen.1, hg, hs.prodTail]
  have hown := (hinv.own c).dequeued
  rw [hseen.2] at hown
  have hgot : dequeuedOf (t.returned c) = t.deq.items := by
    rw [← hsolo.items_eq.2]
    exact (List.append_nil _).symm.trans hown
  rw [hgot, hsolo.enqueuedOf_eq hinv, hs.items, hdone]

/-- The consumer gets a pointer, and then `NULL` while the next enqueue is in progress. -/
theorem spsc_null_handover :
    ∃ (br : BufRing Nat) (s : State (Fin 2) Nat), alloc (Int32.ofNat (2 ^ 2)) true = some br
      ∧ dequeuedOf (s.returned 1) = [some 7]
      ∧ dequeuedOf (s.returned 1) = enqueuedOf (s.returned 0) := by
  have hrun : ∃ s s' : State (Fin 2) Nat,
      (State.init ⟨0, 0, 4, 3, 0, 0, 0, 4, 3, fun _ => none⟩).run
      ((0, .call (.enqueue (some 7))) :: List.replicate 6 (0, .access false)
        ++ (1, .call .dequeueMc) :: List.replicate 6 (1, .access false)
        ++ (0, .call (.enqueue (some 8))) :: List.replicate 5 (0, .access false)
        ++ (1, .call .dequeueSc) :: [(1, .access false)]) = some s
      ∧ s.step 1 (.access false) = some s' ∧ s'.returned 1 = s.returned 1 ++ [.nothing]
      ∧ dequeuedOf (s.returned 1) = [some 7] := ⟨_, _, rfl, rfl, rfl, rfl⟩
  obtain ⟨s, s', hrun, hstep, hnull, hgot⟩ := hrun
  refine ⟨_, s, rfl, hgot, spsc_null 2 (by decide) _ rfl 0 1 _ ?_ s s' hrun false hstep hnull⟩
  simp [Allowed]

end

end CSearch.BufRing
