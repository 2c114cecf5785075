import CSearch.BufRing.Threads

set_option autoImplicit false

/-! # What holds in every state of an orderly run

The tickets of the producers put the pointers in an order, and the consumers get them in that order:
the consumer with ticket `n` is to get the pointer of the producer with ticket `n`. `Inv` says that
the indices, the slots and the threads agree with the tickets; every access keeps it (`Inv.access`).

A thread that tries to take a ticket knows nothing for sure: the index it has read may be old. What it
has concluded from it holds *if* no other thread has taken a ticket since (`Pc.Ok`). The exchange
checks just that, as long as the thread is less than one revolution behind.
-/

namespace CSearch.BufRing

variable {ι α : Type}

/-! ## What a thread knows -/

/-- What the knowledge of the threads is about. -/
structure View (ι α : Type) where
  enq : Turnstile ι (Option α)
  deq : Turnstile ι (Option α)
  ring : Nat → Option α

def Traced.view (t : Traced ι α) : View ι α := ⟨t.enq, t.deq, t.br.ring⟩

/-- The thread has taken a ticket of the producers and not handed it back. -/
def Pc.holdsEnq : Pc α → Bool
  | .enqStore _ _ | .enqWait _ _ | .enqPublish _ _ => true
  | _ => false

/-- The thread has taken a ticket of the consumers and not handed it back. -/
def Pc.holdsDeq : Pc α → Bool
  | .deqLoad _ | .deqWait _ _ | .deqPublish _ _ | .scLoad _ | .scPublish _ _ => true
  | _ => false

theorem Pc.consuming_of_holdsDeq {pc : Pc α} (h : pc.holdsDeq = true) : pc.consuming = true := by
  cases pc with
  | deqLoad g => rfl
  | deqWait g b => rfl
  | deqPublish g b => rfl
  | scLoad g => rfl
  | scPublish g b => rfl
  | _ => cases h

/-- What thread `i` knows in a ring of `N` slots, if it has seen ticket `n`; `full` is whether the
ring has been full since its call began. -/
def Pc.Ok (N : Nat) (v : View ι α) (i : ι) (n : Nat) (full : Bool) : Pc α → Prop
  | .idle | .enqHead _ | .dropsLoad _ | .dropsStore _ _ | .deqHead | .scHead => True
  | .enqTail _ h => h.toNat = n % N ∧ n ≤ v.enq.head
  | .enqHeadAgain _ h c | .enqTailAgain _ h c => (h.toNat = n % N ∧ n ≤ v.enq.head)
      ∧ (n = v.enq.head → full = true ∧ ∃ d ≤ v.deq.done, c.toNat = d % N ∧ n + 1 = d + N)
  | .enqCas _ h => (h.toNat = n % N ∧ n ≤ v.enq.head)
      ∧ (n = v.enq.head → n + 1 < v.deq.done + N)
  | .enqStore b h => h.toNat = n % N ∧ v.enq.Held i n b
  | .enqWait b h => h.toNat = n % N ∧ v.enq.Held i n b ∧ v.ring (n % N) = b
  | .enqPublish b h => h.toNat = n % N ∧ v.enq.Held i n b ∧ v.ring (n % N) = b ∧ n = v.enq.done
  | .deqTail h => h.toNat = n % N ∧ n ≤ v.deq.head
  | .deqCas h => (h.toNat = n % N ∧ n ≤ v.deq.head) ∧ (n = v.deq.head → n < v.enq.done)
  | .deqLoad h | .scLoad h => h.toNat = n % N ∧ ∃ b, v.deq.Held i n b
  | .deqWait h b => h.toNat = n % N ∧ v.deq.Held i n b
  | .deqPublish h b | .scPublish h b => h.toNat = n % N ∧ v.deq.Held i n b ∧ n = v.deq.done
  | .scTail h => h.toNat = n % N ∧ n = v.deq.head
  | .scClaim h => h.toNat = n % N ∧ n = v.deq.head ∧ n < v.enq.done

section

variable {N n : Nat} {v : View ι α} {i j : ι} {full full' : Bool} {pc : Pc α}

theorem Pc.Ok.mono_full (h : pc.Ok N v i n full) (hf : full = true → full' = true) :
    pc.Ok N v i n full' := by
  cases pc with
  | enqHeadAgain b h c => exact ⟨h.1, fun hn => ⟨hf (h.2 hn).1, (h.2 hn).2⟩⟩
  | enqTailAgain b h c => exact ⟨h.1, fun hn => ⟨hf (h.2 hn).1, (h.2 hn).2⟩⟩
  | _ => exact h

/-- Knowledge stays when another producer takes a ticket: what rested on the ticket seen being the
next one no longer does. -/
theorem Pc.Ok.claimEnq {x : Option α} (h : pc.Ok N v j n full) :
    pc.Ok N { v with enq := v.enq.claim i x } j n full := by
  have hlast : ∀ {p : Prop}, n ≤ v.enq.head → n = (v.enq.claim i x).head → p := by
    intro p hle heq
    rw [Turnstile.head_claim] at heq
    omega
  have hle : n ≤ v.enq.head → n ≤ (v.enq.claim i x).head := by
    intro hle
    rw [Turnstile.head_claim]
    omega
  cases pc with
  | enqTail b g => exact ⟨h.1, hle h.2⟩
  | enqHeadAgain b g c => exact ⟨⟨h.1.1, hle h.1.2⟩, hlast h.1.2⟩
  | enqTailAgain b g c => exact ⟨⟨h.1.1, hle h.1.2⟩, hlast h.1.2⟩
  | enqCas b g => exact ⟨⟨h.1.1, hle h.1.2⟩, hlast h.1.2⟩
  | enqStore b g => exact ⟨h.1, h.2.claim⟩
  | enqWait b g => exact ⟨h.1, h.2.1.claim, h.2.2⟩
  | enqPublish b g => exact ⟨h.1, h.2.1.claim, h.2.2⟩
  | _ => exact h

/-- ... when another producer stores to the slot of its ticket. -/
theorem Pc.Ok.store {m : Nat} {x y : Option α} (h : pc.Ok N v j n full) (hne : i ≠ j)
    (hheld : v.enq.Held i m x) (hwin : v.enq.head ≤ v.enq.done + N) :
    pc.Ok N { v with ring := Function.update v.ring (m % N) y } j n full := by
  -- two tickets that are held are less than one revolution apart
  have hslot : ∀ {b : Option α}, v.enq.Held j n b → v.ring (n % N) = b →
      Function.update v.ring (m % N) y (n % N) = b := by
    intro b hj hring
    have hmod : n % N ≠ m % N := by
      intro heq
      have hm := hheld.lt
      have hn := hj.lt
      have hmn : n = m := eq_of_mod_eq hj.1 (by omega) hheld.1 (by omega) heq
      subst hmn
      exact hne (hheld.unique hj).1
    rw [Function.update_of_ne hmod]
    exact hring
  cases pc with
  | enqWait b g => exact ⟨h.1, h.2.1, hslot h.2.1 h.2.2⟩
  | enqPublish b g => exact ⟨h.1, h.2.1, hslot h.2.1 h.2.2.1, h.2.2.2⟩
  | _ => exact h

/-- ... when another producer hands its ticket back. -/
theorem Pc.Ok.publishEnq {x : Option α} (h : pc.Ok N v j n full) (hne : i ≠ j)
    (hheld : v.enq.Held i v.enq.done x) : pc.Ok N { v with enq := v.enq.publish } j n full := by
  have hkeep : ∀ {b : Option α}, v.enq.Held j n b → n ≠ v.enq.done := by
    rintro b hj rfl
    exact hne (hheld.unique hj).1
  cases pc with
  | enqStore b g => exact ⟨h.1, Turnstile.held_publish_iff.mpr ⟨h.2, hkeep h.2⟩⟩
  | enqWait b g => exact ⟨h.1, Turnstile.held_publish_iff.mpr ⟨h.2.1, hkeep h.2.1⟩, h.2.2⟩
  | enqPublish b g => exact absurd h.2.2.2 (hkeep h.2.1)
  | deqCas g => exact ⟨h.1, fun hn => Nat.lt_succ_of_lt (h.2 hn)⟩
  | scClaim g => exact ⟨h.1, h.2.1, Nat.lt_succ_of_lt h.2.2⟩
  | _ => exact h

/-- ... when another consumer takes a ticket, except in `buf_ring_dequeue_sc`. -/
theorem Pc.Ok.claimDeq {x : Option α} (h : pc.Ok N v j n full) (hsc : pc.single = false) :
    pc.Ok N { v with deq := v.deq.claim i x } j n full := by
  cases pc with
  | deqTail g =>
      refine ⟨h.1, ?_⟩
      show n ≤ (v.deq.claim i x).head
      rw [Turnstile.head_claim]
      exact Nat.le_succ_of_le h.2
  | deqCas g =>
      have hle := h.1.2
      refine ⟨⟨h.1.1, ?_⟩, fun hn => ?_⟩
      · show n ≤ (v.deq.claim i x).head
        rw [Turnstile.head_claim]
        omega
      · have hn' : n = (v.deq.claim i x).head := hn
        rw [Turnstile.head_claim] at hn'
        omega
  | deqLoad g => exact ⟨h.1, h.2.imp (fun b hb => hb.claim)⟩
  | deqWait g b => exact ⟨h.1, h.2.claim⟩
  | deqPublish g b => exact ⟨h.1, h.2.1.claim, h.2.2⟩
  | scTail g => cases hsc
  | scClaim g => cases hsc
  | scLoad g => cases hsc
  | scPublish g b => cases hsc
  | _ => exact h

/-- ... when another consumer hands its ticket back. -/
theorem Pc.Ok.publishDeq {x : Option α} (h : pc.Ok N v j n full) (hne : i ≠ j)
    (hheld : v.deq.Held i v.deq.done x) : pc.Ok N { v with deq := v.deq.publish } j n full := by
  have hkeep : ∀ {b : Option α}, v.deq.Held j n b → v.deq.publish.Held j n b := by
    intro b hj
    refine Turnstile.held_publish_iff.mpr ⟨hj, ?_⟩
    rintro rfl
    exact hne (hheld.unique hj).1
  have hlater : ∀ {p : Nat → Prop}, (∃ d ≤ v.deq.done, p d) → ∃ d ≤ v.deq.publish.done, p d :=
    fun hd => hd.imp (fun d h' => ⟨Nat.le_succ_of_le h'.1, h'.2⟩)
  cases pc with
  | enqHeadAgain b g c => exact ⟨h.1, fun hn => ⟨(h.2 hn).1, hlater (h.2 hn).2⟩⟩
  | enqTailAgain b g c => exact ⟨h.1, fun hn => ⟨(h.2 hn).1, hlater (h.2 hn).2⟩⟩
  | enqCas b g =>
      refine ⟨h.1, fun hn => ?_⟩
      have hlt := h.2 hn
      show n + 1 < v.deq.done + 1 + N
      omega
  | deqLoad g => exact ⟨h.1, h.2.imp (fun b hb => hkeep hb)⟩
  | scLoad g => exact ⟨h.1, h.2.imp (fun b hb => hkeep hb)⟩
  | deqWait g b => exact ⟨h.1, hkeep h.2⟩
  | deqPublish g b =>
      have hn : n = v.deq.done := h.2.2
      exact absurd (hkeep h.2.1).1 (by rw [hn]; exact Nat.not_succ_le_self _)
  | scPublish g b =>
      have hn : n = v.deq.done := h.2.2
      exact absurd (hkeep h.2.1).1 (by rw [hn]; exact Nat.not_succ_le_self _)
  | _ => exact h

/-- The ticket of a thread in the second half of an enqueue. -/
theorem Pc.Ok.enq_held (h : pc.Ok N v i n full) (hpc : pc.holdsEnq = true) :
    ∃ b, v.enq.Held i n b := by
  cases pc with
  | enqStore b g => exact ⟨b, h.2⟩
  | enqWait b g => exact ⟨b, h.2.1⟩
  | enqPublish b g => exact ⟨b, h.2.1⟩
  | _ => cases hpc

/-- The ticket of a thread in the second half of a dequeue. -/
theorem Pc.Ok.deq_held (h : pc.Ok N v i n full) (hpc : pc.holdsDeq = true) :
    ∃ b, v.deq.Held i n b := by
  cases pc with
  | deqLoad g => exact h.2
  | scLoad g => exact h.2
  | deqWait g b => exact ⟨b, h.2⟩
  | deqPublish g b => exact ⟨b, h.2.1⟩
  | scPublish g b => exact ⟨b, h.2.1⟩
  | _ => cases hpc

theorem Pc.Ok.enq_lt (h : pc.Ok N v i n full) (hpc : pc.holdsEnq = true) : n < v.enq.head :=
  (h.enq_held hpc).elim (fun _ hheld => hheld.lt)

theorem Pc.Ok.deq_lt (h : pc.Ok N v i n full) (hpc : pc.holdsDeq = true) : n < v.deq.head :=
  (h.deq_held hpc).elim (fun _ hheld => hheld.lt)

end

/-! ## The invariant -/

/-- The pointers handed over by the enqueues among the finished calls of a thread. -/
def enqueuedOf (outs : List (Outcome α)) : List (Option α) :=
  outs.filterMap (fun o => match o with | .enqueued b => some b | _ => none)

/-- The pointers got from the dequeues among the finished calls of a thread. -/
def dequeuedOf (outs : List (Outcome α)) : List (Option α) :=
  outs.filterMap (fun o => match o with | .dequeued b => some b | _ => none)

/-- The pointer of the call in progress, if the thread holds ticket `n`. -/
def pending (T : Turnstile ι (Option α)) (n : Nat) (holds : Bool) : List (Option α) :=
  if holds then T.items[n]?.toList else []

theorem pending_claim {T : Turnstile ι (Option α)} {n : Nat} {holds : Bool} {i : ι} {x : Option α}
    (h : holds = true → n < T.head) : pending (T.claim i x) n holds = pending T n holds := by
  unfold pending
  split
  · next hholds =>
    rw [Turnstile.items_claim, List.getElem?_append_left]
    rw [Turnstile.items_length]
    exact h hholds
  · rfl

theorem pending_held {T : Turnstile ι (Option α)} {n : Nat} {i : ι} {x : Option α}
    (h : T.Held i n x) : pending T n true = [x] := by
  rw [pending, if_pos rfl, h.item]
  rfl

/-- The indices are the remainders of the tickets, at most `2 ^ k - 1` tickets are under way, and the
slots between the tails hold their pointers. -/
structure Shared (k : Nat) (br : BufRing α) (enq deq : Turnstile ι (Option α)) : Prop where
  sized : Sized k br
  prodHead : br.prodHead.toNat = enq.head % 2 ^ k
  prodTail : br.prodTail.toNat = enq.done % 2 ^ k
  consHead : br.consHead.toNat = deq.head % 2 ^ k
  consTail : br.consTail.toNat = deq.done % 2 ^ k
  deq_le : deq.done ≤ deq.head
  le : deq.head ≤ enq.done
  enq_le : enq.done ≤ enq.head
  room : enq.head < deq.done + 2 ^ k
  items : deq.items = enq.items.take deq.head
  ring : ∀ n p, deq.done ≤ n → n < enq.done → enq.items[n]? = some p → br.ring (n % 2 ^ k) = p

/-- What holds of one thread: its knowledge, that it holds one ticket at most, and that its finished
calls and the one in progress are its tickets in order. -/
structure Own [DecidableEq ι] (N : Nat) (v : View ι α) (i : ι) (n : Nat) (full : Bool) (pc : Pc α)
    (outs : List (Outcome α)) : Prop where
  ok : pc.Ok N v i n full
  enqHeld : ∀ m b, v.enq.Held i m b → m = n ∧ pc.holdsEnq = true
  deqHeld : ∀ m b, v.deq.Held i m b → m = n ∧ pc.holdsDeq = true
  enqueued : enqueuedOf outs ++ pending v.enq n pc.holdsEnq = v.enq.itemsOf i
  dequeued : dequeuedOf outs ++ pending v.deq n pc.holdsDeq = v.deq.itemsOf i

/-- What holds in every state of an orderly run. -/
structure Inv [DecidableEq ι] (k : Nat) (t : Traced ι α) : Prop where
  shared : Shared k t.br t.enq t.deq
  own : ∀ i, Own (2 ^ k) t.view i (t.seen i) (t.sawFull i) (t.pc i) (t.returned i)

/-! ### Another thread moves -/

section

variable [DecidableEq ι] {N n : Nat} {v : View ι α} {i j : ι} {full full' : Bool} {pc : Pc α}
  {outs : List (Outcome α)} {x : Option α}

theorem Own.mono_full (h : Own N v j n full pc outs) (hf : full = true → full' = true) :
    Own N v j n full' pc outs :=
  ⟨h.ok.mono_full hf, h.enqHeld, h.deqHeld, h.enqueued, h.dequeued⟩

theorem Own.claimEnq (h : Own N v j n full pc outs) (hne : i ≠ j)
    (hle : v.enq.done ≤ v.enq.head) :
    Own N { v with enq := v.enq.claim i x } j n full pc outs := by
  refine ⟨h.ok.claimEnq, fun m b hheld => ?_, h.deqHeld, ?_, h.dequeued⟩
  · rcases (Turnstile.held_claim_iff hle).mp hheld with hold | ⟨-, hij, -⟩
    · exact h.enqHeld m b hold
    · exact absurd hij.symm hne
  · rw [pending_claim h.ok.enq_lt, Turnstile.itemsOf_claim_ne hne]
    exact h.enqueued

theorem Own.store {m : Nat} {y : Option α} (h : Own N v j n full pc outs) (hne : i ≠ j)
    (hheld : v.enq.Held i m x) (hwin : v.enq.head ≤ v.enq.done + N) :
    Own N { v with ring := Function.update v.ring (m % N) y } j n full pc outs :=
  ⟨h.ok.store hne hheld hwin, h.enqHeld, h.deqHeld, h.enqueued, h.dequeued⟩

theorem Own.publishEnq (h : Own N v j n full pc outs) (hne : i ≠ j)
    (hheld : v.enq.Held i v.enq.done x) :
    Own N { v with enq := v.enq.publish } j n full pc outs :=
  ⟨h.ok.publishEnq hne hheld, fun m b hm => h.enqHeld m b (Turnstile.held_publish_iff.mp hm).1,
    h.deqHeld, h.enqueued, h.dequeued⟩

theorem Own.claimDeq (h : Own N v j n full pc outs) (hne : i ≠ j)
    (hle : v.deq.done ≤ v.deq.head) (hsc : pc.single = false) :
    Own N { v with deq := v.deq.claim i x } j n full pc outs := by
  refine ⟨h.ok.claimDeq hsc, h.enqHeld, fun m b hheld => ?_, h.enqueued, ?_⟩
  · rcases (Turnstile.held_claim_iff hle).mp hheld with hold | ⟨-, hij, -⟩
    · exact h.deqHeld m b hold
    · exact absurd hij.symm hne
  · rw [pending_claim h.ok.deq_lt, Turnstile.itemsOf_claim_ne hne]
    exact h.dequeued

theorem Own.publishDeq (h : Own N v j n full pc outs) (hne : i ≠ j)
    (hheld : v.deq.Held i v.deq.done x) :
    Own N { v with deq := v.deq.publish } j n full pc outs :=
  ⟨h.ok.publishDeq hne hheld, h.enqHeld,
    fun m b hm => h.deqHeld m b (Turnstile.held_publish_iff.mp hm).1, h.enqueued, h.dequeued⟩

/-! ### A thread moves itself -/

/-- A move that changes neither the tickets nor the ring. -/
theorem Own.move {n' : Nat} {pc' : Pc α} {outs' : List (Outcome α)}
    (h : Own N v i n full pc outs) (hok : pc'.Ok N v i n' full')
    (henq : pc'.holdsEnq = pc.holdsEnq) (hdeq : pc'.holdsDeq = pc.holdsDeq)
    (hn : n' = n ∨ pc.holdsEnq = false ∧ pc.holdsDeq = false)
    (houts : enqueuedOf outs' = enqueuedOf outs) (houts' : dequeuedOf outs' = dequeuedOf outs) :
    Own N v i n' full' pc' outs' := by
  rcases hn with rfl | ⟨hnot, hnot'⟩
  · refine ⟨hok, ?_, ?_, ?_, ?_⟩
    · rw [henq]
      exact h.enqHeld
    · rw [hdeq]
      exact h.deqHeld
    · rw [henq, houts]
      exact h.enqueued
    · rw [hdeq, houts']
      exact h.dequeued
  · refine ⟨hok, fun m b hheld => ?_, fun m b hheld => ?_, ?_, ?_⟩
    · exact absurd (h.enqHeld m b hheld).2 (by rw [hnot]; decide)
    · exact absurd (h.deqHeld m b hheld).2 (by rw [hnot']; decide)
    · have henqueued := h.enqueued
      rw [hnot] at henqueued
      rw [henq, hnot, houts]
      exact henqueued
    · have hdequeued := h.dequeued
      rw [hnot'] at hdequeued
      rw [hdeq, hnot', houts']
      exact hdequeued

/-- The exchange succeeds in an enqueue. -/
theorem Own.claimEnq_self {g : UInt32} (h : Own N v i v.enq.head full (.enqCas x g) outs)
    (hle : v.enq.done ≤ v.enq.head) :
    Own N { v with enq := v.enq.claim i x } i v.enq.head full' (.enqStore x g) outs := by
  refine ⟨⟨h.ok.1.1, Turnstile.held_claim_self hle⟩, fun m b hheld => ?_, h.deqHeld, ?_, h.dequeued⟩
  · rcases (Turnstile.held_claim_iff hle).mp hheld with hold | ⟨hm, -, -⟩
    · exact absurd (h.enqHeld m b hold).2 Bool.false_ne_true
    · exact ⟨hm, rfl⟩
  · have henqueued : enqueuedOf outs ++ [] = v.enq.itemsOf i := h.enqueued
    rw [List.append_nil] at henqueued
    show enqueuedOf outs ++ pending (v.enq.claim i x) v.enq.head true = _
    rw [pending_held (Turnstile.held_claim_self hle), henqueued, Turnstile.itemsOf_claim_self]

/-- An enqueue stores its pointer. -/
theorem Own.store_self {g : UInt32} (h : Own N v i n full (.enqStore x g) outs) :
    Own N { v with ring := Function.update v.ring (n % N) x } i n full' (.enqWait x g) outs :=
  ⟨⟨h.ok.1, h.ok.2, Function.update_self _ _ _⟩, h.enqHeld, h.deqHeld, h.enqueued, h.dequeued⟩

/-- An enqueue hands its ticket back and is over. -/
theorem Own.publishEnq_self {g : UInt32} (h : Own N v i n full (.enqPublish x g) outs) :
    Own N { v with enq := v.enq.publish } i n full' .idle (outs ++ [.enqueued x]) := by
  obtain ⟨-, hheld, -, hn⟩ := h.ok
  refine ⟨trivial, fun m b hm => ?_, h.deqHeld, ?_, ?_⟩
  · obtain ⟨hold, hne⟩ := Turnstile.held_publish_iff.mp hm
    exact absurd ((h.enqHeld m b hold).1.trans hn) hne
  · have henqueued : enqueuedOf outs ++ pending v.enq n true = v.enq.itemsOf i := h.enqueued
    rw [pending_held hheld] at henqueued
    show enqueuedOf (outs ++ [.enqueued x]) ++ [] = v.enq.itemsOf i
    rw [List.append_nil, ← henqueued, enqueuedOf, List.filterMap_append]
    rfl
  · have hdequeued : dequeuedOf outs ++ [] = v.deq.itemsOf i := h.dequeued
    show dequeuedOf (outs ++ [.enqueued x]) ++ [] = v.deq.itemsOf i
    rw [← hdequeued, dequeuedOf, List.filterMap_append]
    exact List.append_nil _

/-- A consumer takes a ticket. -/
theorem Own.claimDeq_self {pc' : Pc α} {g : UInt32} (h : Own N v i v.deq.head full pc outs)
    (hg : g.toNat = v.deq.head % N) (hpc : pc.holdsEnq = false ∧ pc.holdsDeq = false)
    (hpc' : pc' = .deqLoad g ∨ pc' = .scLoad g) (hle : v.deq.done ≤ v.deq.head) :
    Own N { v with deq := v.deq.claim i x } i v.deq.head full' pc' outs := by
  have hok : pc'.Ok N { v with deq := v.deq.claim i x } i v.deq.head full' := by
    rcases hpc' with rfl | rfl
    · exact ⟨hg, x, Turnstile.held_claim_self hle⟩
    · exact ⟨hg, x, Turnstile.held_claim_self hle⟩
  have hholds : pc'.holdsEnq = false ∧ pc'.holdsDeq = true := by
    rcases hpc' with rfl | rfl
    · exact ⟨rfl, rfl⟩
    · exact ⟨rfl, rfl⟩
  refine ⟨hok, fun m b hheld => ?_, fun m b hheld => ?_, ?_, ?_⟩
  · exact absurd (h.enqHeld m b hheld).2 (by rw [hpc.1]; decide)
  · rcases (Turnstile.held_claim_iff hle).mp hheld with hold | ⟨hm, -, -⟩
    · exact absurd (h.deqHeld m b hold).2 (by rw [hpc.2]; decide)
    · exact ⟨hm, hholds.2⟩
  · have henqueued := h.enqueued
    rw [hpc.1] at henqueued
    rw [hholds.1]
    exact henqueued
  · have hdequeued := h.dequeued
    rw [hpc.2] at hdequeued
    rw [hholds.2, pending_held (Turnstile.held_claim_self hle), Turnstile.itemsOf_claim_self,
      ← hdequeued]
    show _ = (dequeuedOf outs ++ []) ++ [x]
    rw [List.append_nil]

/-- A dequeue hands its ticket back and is over. -/
theorem Own.publishDeq_self (h : Own N v i n full pc outs) (hheld : v.deq.Held i n x)
    (hn : n = v.deq.done) (hpc : pc.holdsEnq = false ∧ pc.holdsDeq = true) :
    Own N { v with deq := v.deq.publish } i n full' .idle (outs ++ [.dequeued x]) := by
  refine ⟨trivial, fun m b hm => ?_, fun m b hm => ?_, ?_, ?_⟩
  · exact absurd (h.enqHeld m b hm).2 (by rw [hpc.1]; decide)
  · obtain ⟨hold, hne⟩ := Turnstile.held_publish_iff.mp hm
    exact absurd ((h.deqHeld m b hold).1.trans hn) hne
  · have henqueued := h.enqueued
    rw [hpc.1] at henqueued
    show enqueuedOf (outs ++ [.dequeued x]) ++ [] = v.enq.itemsOf i
    rw [← henqueued, enqueuedOf, List.filterMap_append]
    exact List.append_nil _
  · have hdequeued := h.dequeued
    rw [hpc.2, pending_held hheld] at hdequeued
    show dequeuedOf (outs ++ [.dequeued x]) ++ [] = v.deq.itemsOf i
    rw [List.append_nil, ← hdequeued, dequeuedOf, List.filterMap_append]
    rfl

end

/-! ### The indices move -/

namespace Shared

variable {k : Nat} {br : BufRing α} {enq deq : Turnstile ι (Option α)} {i : ι} {x : Option α}

/-- A ticket that is less than a revolution old is known from its index. -/
theorem eq_enq_head (h : Shared k br enq deq) {n : Nat} {g : UInt32} (hg : g.toNat = n % 2 ^ k)
    (hle : n ≤ enq.head) (hlt : enq.head - n < 2 ^ k) (heq : br.prodHead = g) : n = enq.head := by
  refine eq_of_mod_eq (l := n) (Nat.le_refl n) (Nat.lt_add_of_pos_right (Nat.two_pow_pos k)) hle
    (by omega) ?_
  rw [← hg, ← heq, h.prodHead]

theorem eq_deq_head (h : Shared k br enq deq) {n : Nat} {g : UInt32} (hg : g.toNat = n % 2 ^ k)
    (hle : n ≤ deq.head) (hlt : deq.head - n < 2 ^ k) (heq : br.consHead = g) : n = deq.head := by
  refine eq_of_mod_eq (l := n) (Nat.le_refl n) (Nat.lt_add_of_pos_right (Nat.two_pow_pos k)) hle
    (by omega) ?_
  rw [← hg, ← heq, h.consHead]

/-- The next index of the producers is the tail of the consumers exactly if no ticket is left. -/
theorem next_eq_iff (h : Shared k br enq deq) {g : UInt32} (hg : g.toNat = enq.head % 2 ^ k) :
    next br.prodMask g = br.consTail ↔ enq.head + 1 = deq.done + 2 ^ k := by
  have hroom := h.room
  have hle : deq.done ≤ enq.head := h.deq_le.trans (h.le.trans h.enq_le)
  rw [← UInt32.toNat_inj, h.sized.prodMask, next_toNat h.sized.le hg, h.consTail]
  constructor
  · intro heq
    rw [← Nat.add_mod_right deq.done] at heq
    exact eq_of_mod_eq (l := deq.done + 1) (by omega) (by omega) (by omega) (by omega) heq
  · intro heq
    rw [heq, Nat.add_mod_right]

/-- If the ticket seen is still the next one, different indices mean that a pointer is there. -/
theorem lt_of_ne (h : Shared k br enq deq) {n : Nat} {g : UInt32} (hg : g.toNat = n % 2 ^ k)
    (hne : g ≠ br.prodTail) (hn : n = deq.head) : n < enq.done := by
  subst hn
  refine Nat.lt_of_le_of_ne h.le (fun heq => hne ?_)
  rw [← UInt32.toNat_inj, hg, h.prodTail, heq]

/-- A new ticket has a slot of its own. -/
theorem claimEnq (h : Shared k br enq deq) (hroom : enq.head + 1 < deq.done + 2 ^ k) {g : UInt32}
    (hg : g.toNat = enq.head % 2 ^ k) :
    Shared k { br with prodHead := next br.prodMask g } (enq.claim i x) deq where
  sized := ⟨h.sized.le, h.sized.prodSize, h.sized.prodMask, h.sized.consMask⟩
  prodHead := by
    rw [Turnstile.head_claim]
    show (next br.prodMask g).toNat = _
    rw [h.sized.prodMask, next_toNat h.sized.le hg]
  prodTail := h.prodTail
  consHead := h.consHead
  consTail := h.consTail
  deq_le := h.deq_le
  le := h.le
  enq_le := by
    rw [Turnstile.head_claim]
    exact Nat.le_succ_of_le h.enq_le
  room := by
    rw [Turnstile.head_claim]
    exact hroom
  items := by
    rw [Turnstile.items_claim, List.take_append_of_le_length]
    · exact h.items
    · rw [Turnstile.items_length]
      exact h.le.trans h.enq_le
  ring := by
    intro n p hn hlt hp
    refine h.ring n p hn hlt ?_
    rw [Turnstile.items_claim, List.getElem?_append_left] at hp
    · exact hp
    · rw [Turnstile.items_length]
      exact Nat.lt_of_lt_of_le hlt h.enq_le

/-- A store to the slot of a ticket that is held leaves the slots in use alone. -/
theorem store (h : Shared k br enq deq) {n : Nat} (hheld : enq.Held i n x) {g : UInt32}
    (hg : g.toNat = n % 2 ^ k) {y : Option α} : Shared k (br.put g y) enq deq where
  sized := ⟨h.sized.le, h.sized.prodSize, h.sized.prodMask, h.sized.consMask⟩
  prodHead := h.prodHead
  prodTail := h.prodTail
  consHead := h.consHead
  consTail := h.consTail
  deq_le := h.deq_le
  le := h.le
  enq_le := h.enq_le
  room := h.room
  items := h.items
  ring := by
    intro m p hm hlt hp
    have hroom := h.room
    have hdone := hheld.1
    have hhead := hheld.lt
    have hslot : m % 2 ^ k ≠ n % 2 ^ k := by
      intro heq
      have := eq_of_mod_eq (l := deq.done) hm (by omega) (by omega) (by omega) heq
      omega
    show Function.update br.ring g.toNat y (m % 2 ^ k) = p
    rw [hg, Function.update_of_ne hslot]
    exact h.ring m p hm hlt hp

/-- A ticket of the producers is handed back. -/
theorem publishEnq (h : Shared k br enq deq) (hheld : enq.Held i enq.done x)
    (hring : br.ring (enq.done % 2 ^ k) = x) {g : UInt32} (hg : g.toNat = enq.done % 2 ^ k) :
    Shared k { br with prodTail := next br.prodMask g } enq.publish deq where
  sized := ⟨h.sized.le, h.sized.prodSize, h.sized.prodMask, h.sized.consMask⟩
  prodHead := h.prodHead
  prodTail := by
    rw [Turnstile.done_publish]
    show (next br.prodMask g).toNat = _
    rw [h.sized.prodMask, next_toNat h.sized.le hg]
  consHead := h.consHead
  consTail := h.consTail
  deq_le := h.deq_le
  le := Nat.le_succ_of_le h.le
  enq_le := hheld.lt
  room := h.room
  items := h.items
  ring := by
    intro m p hm hlt hp
    rcases Nat.lt_or_eq_of_le (Nat.le_of_lt_succ hlt) with hlt' | rfl
    · exact h.ring m p hm hlt' hp
    · have hitem : enq.items[enq.done]? = some p := hp
      rw [hheld.item, Option.some.injEq] at hitem
      rw [← hitem]
      exact hring

/-- A consumer takes a ticket: it is to get the pointer of the same number. -/
theorem claimDeq (h : Shared k br enq deq) (hlt : deq.head < enq.done) {g : UInt32}
    (hg : g.toNat = deq.head % 2 ^ k) :
    Shared k { br with consHead := next br.consMask g } enq
      (deq.claim i (enq.items[deq.head]?.join)) where
  sized := ⟨h.sized.le, h.sized.prodSize, h.sized.prodMask, h.sized.consMask⟩
  prodHead := h.prodHead
  prodTail := h.prodTail
  consHead := by
    rw [Turnstile.head_claim]
    show (next br.consMask g).toNat = _
    rw [h.sized.consMask, next_toNat h.sized.le hg]
  consTail := h.consTail
  deq_le := by
    rw [Turnstile.head_claim]
    exact Nat.le_succ_of_le h.deq_le
  le := by
    rw [Turnstile.head_claim]
    exact hlt
  enq_le := h.enq_le
  room := h.room
  items := by
    have hlen : deq.head < enq.items.length := by
      rw [Turnstile.items_length]
      exact Nat.lt_of_lt_of_le hlt h.enq_le
    rw [Turnstile.items_claim, Turnstile.head_claim, List.take_add_one, h.items,
      List.getElem?_eq_getElem hlen]
    rfl
  ring := h.ring

/-- A ticket of the consumers is handed back, and its slot is free. -/
theorem publishDeq (h : Shared k br enq deq) (hlt : deq.done < deq.head) {g : UInt32}
    (hg : g.toNat = deq.done % 2 ^ k) :
    Shared k { br with consTail := next br.consMask g } enq deq.publish where
  sized := ⟨h.sized.le, h.sized.prodSize, h.sized.prodMask, h.sized.consMask⟩
  prodHead := h.prodHead
  prodTail := h.prodTail
  consHead := h.consHead
  consTail := by
    rw [Turnstile.done_publish]
    show (next br.consMask g).toNat = _
    rw [h.sized.consMask, next_toNat h.sized.le hg]
  deq_le := hlt
  le := h.le
  enq_le := h.enq_le
  room := by
    have hroom := h.room
    rw [Turnstile.done_publish]
    omega
  items := h.items
  ring := fun n p hn => h.ring n p (Nat.le_of_succ_le hn)

/-- The slot of a ticket that a consumer holds has its pointer. -/
theorem ring_of_held (h : Shared k br enq deq) {n : Nat} (hheld : deq.Held i n x) :
    br.ring (n % 2 ^ k) = x := by
  have hlt := hheld.lt
  refine h.ring n x hheld.1 (Nat.lt_of_lt_of_le hlt h.le) ?_
  have hitem := hheld.item
  rw [h.items, List.getElem?_take_of_lt hlt] at hitem
  exact hitem

end Shared

/-! ## Every step -/

section

variable [DecidableEq ι] {k : Nat} {t t' : Traced ι α} {i : ι}

/-- An access of thread `i`: what is left to show about the ring, the thread and the others. -/
theorem Inv.after {e : Effect α} (h : Inv k t)
    (hshared : Shared k e.br (t.toGhost.note i e.mark).enq (t.toGhost.note i e.mark).deq)
    (hown : Own (2 ^ k) ⟨(t.toGhost.note i e.mark).enq, (t.toGhost.note i e.mark).deq, e.br.ring⟩ i
      ((t.toGhost.note i e.mark).seen i) (t.sawFull i || e.br.full) e.pc
      (t.returned i ++ e.out.toList))
    (hothers : ∀ j, i ≠ j →
      Own (2 ^ k) t.view j (t.seen j) (t.sawFull j) (t.pc j) (t.returned j) →
      Own (2 ^ k) ⟨(t.toGhost.note i e.mark).enq, (t.toGhost.note i e.mark).deq, e.br.ring⟩ j
        (t.seen j) (t.sawFull j) (t.pc j) (t.returned j)) :
    Inv k (t.after i e) := by
  refine ⟨hshared, fun j => ?_⟩
  by_cases hj : i = j
  · subst hj
    show Own (2 ^ k) _ i _ _ (Function.update t.pc i e.pc i)
      (Function.update t.returned i (t.returned i ++ e.out.toList) i)
    rw [Function.update_self, Function.update_self]
    exact hown
  · have hseen : (t.toGhost.note i e.mark).seen j = t.seen j := by
      cases e.mark with
      | sawProdHead => exact Function.update_of_ne (fun h => hj h.symm) _ _
      | sawConsHead => exact Function.update_of_ne (fun h => hj h.symm) _ _
      | _ => rfl
    show Own (2 ^ k) _ j ((t.toGhost.note i e.mark).seen j) (t.sawFull j || e.br.full)
      (Function.update t.pc i e.pc j)
      (Function.update t.returned i (t.returned i ++ e.out.toList) j)
    rw [Function.update_of_ne (fun h => hj h.symm), Function.update_of_ne (fun h => hj h.symm), hseen]
    exact (hothers j hj (h.own j)).mono_full (fun hf => by rw [hf]; rfl)

/-- An access that changes neither the tickets nor the ring, but for `br_drops`. -/
theorem Inv.quiet {e : Effect α} (h : Inv k t) (hbr : ∃ d, e.br = { t.br with drops := d })
    (hmark : e.mark = .none ∨ (e.mark = .sawProdHead ∨ e.mark = .sawConsHead)
      ∧ (t.pc i).holdsEnq = false ∧ (t.pc i).holdsDeq = false)
    (hok : e.pc.Ok (2 ^ k) t.view i ((t.toGhost.note i e.mark).seen i) (t.sawFull i || t.br.full))
    (henq : e.pc.holdsEnq = (t.pc i).holdsEnq) (hdeq : e.pc.holdsDeq = (t.pc i).holdsDeq)
    (hout : enqueuedOf e.out.toList = [] ∧ dequeuedOf e.out.toList = []) :
    Inv k (t.after i e) := by
  obtain ⟨d, hbr⟩ := hbr
  have htickets : (t.toGhost.note i e.mark).enq = t.enq ∧ (t.toGhost.note i e.mark).deq = t.deq := by
    rcases hmark with hm | ⟨hm | hm, -⟩
    · rw [hm]
      exact ⟨rfl, rfl⟩
    · rw [hm]
      exact ⟨rfl, rfl⟩
    · rw [hm]
      exact ⟨rfl, rfl⟩
  have hring : e.br.ring = t.br.ring := by rw [hbr]
  have hfull : e.br.full = t.br.full := by rw [hbr]; rfl
  refine h.after ?_ ?_ ?_
  · rw [htickets.1, htickets.2, hbr]
    have hs := h.shared
    exact ⟨⟨hs.sized.le, hs.sized.prodSize, hs.sized.prodMask, hs.sized.consMask⟩, hs.prodHead,
      hs.prodTail, hs.consHead, hs.consTail, hs.deq_le, hs.le, hs.enq_le, hs.room, hs.items, hs.ring⟩
  · rw [htickets.1, htickets.2, hring, hfull]
    refine (h.own i).move hok henq hdeq ?_ ?_ ?_
    · rcases hmark with hm | ⟨-, hnot⟩
      · rw [hm]
        exact Or.inl rfl
      · exact Or.inr hnot
    · rw [enqueuedOf, List.filterMap_append]
      exact (congrArg _ hout.1).trans (List.append_nil _)
    · rw [dequeuedOf, List.filterMap_append]
      exact (congrArg _ hout.2).trans (List.append_nil _)
  · intro j _ hown
    rw [htickets.1, htickets.2, hring]
    exact hown

/-- A call begins. -/
theorem Inv.begin (h : Inv k t) (hidle : t.pc i = .idle) (c : Call α) : Inv k (t.begin i c) := by
  refine ⟨h.shared, fun j => ?_⟩
  show Own (2 ^ k) t.view j (t.seen j) (Function.update t.sawFull i t.br.full j)
    (Function.update t.pc i c.start j) (t.returned j)
  by_cases hj : j = i
  · subst hj
    have hown := h.own j
    rw [hidle] at hown
    rw [Function.update_self, Function.update_self]
    cases c with
    | enqueue buf => exact hown.move trivial rfl rfl (Or.inl rfl) rfl rfl
    | dequeueMc => exact hown.move trivial rfl rfl (Or.inl rfl) rfl rfl
    | dequeueSc => exact hown.move trivial rfl rfl (Or.inl rfl) rfl rfl
  · rw [Function.update_of_ne hj, Function.update_of_ne hj]
    exact h.own j

theorem Sized.slots_eq {br : BufRing α} (h : Sized k br) : slots br = 2 ^ k := by
  rw [slots, h.prodSize, toUInt32_size_toNat h.le]

/-- What thread `i` knows where it stands. -/
theorem Inv.ok_of (h : Inv k t) {pc : Pc α} (hpc : t.pc i = pc) :
    pc.Ok (2 ^ k) t.view i (t.seen i) (t.sawFull i) := by
  rw [← hpc]
  exact (h.own i).ok

/-- An access that only moves the thread. -/
theorem Inv.to (h : Inv k t) {pc pc' : Pc α} (hpc : t.pc i = pc)
    (hok : pc'.Ok (2 ^ k) t.view i (t.seen i) (t.sawFull i || t.br.full))
    (henq : pc'.holdsEnq = pc.holdsEnq) (hdeq : pc'.holdsDeq = pc.holdsDeq) :
    Inv k (t.after i (.to t.br pc')) := by
  subst hpc
  exact h.quiet ⟨t.br.drops, rfl⟩ (Or.inl rfl) hok henq hdeq ⟨rfl, rfl⟩

/-! ### The accesses of an enqueue -/

section

variable {b : Option α} {g c : UInt32} {weak : Bool}

theorem Inv.enqHead (h : Inv k t) (hpc : t.pc i = .enqHead b) :
    Inv k (t.after i (access t.br weak (.enqHead b))) := by
  have hpc' : (t.pc i).holdsEnq = false ∧ (t.pc i).holdsDeq = false := by
    rw [hpc]
    exact ⟨rfl, rfl⟩
  refine h.quiet ⟨t.br.drops, rfl⟩ (Or.inr ⟨Or.inl rfl, hpc'⟩) ?_ hpc'.1.symm hpc'.2.symm ⟨rfl, rfl⟩
  show t.br.prodHead.toNat = Function.update t.seen i t.enq.head i % 2 ^ k ∧ _ ≤ _
  rw [Function.update_self]
  exact ⟨h.shared.prodHead, Nat.le_of_eq (Function.update_self _ _ _)⟩

theorem Inv.enqTail (h : Inv k t) (hpc : t.pc i = .enqTail b g) :
    Inv k (t.after i (access t.br weak (.enqTail b g))) := by
  have hok := h.ok_of hpc
  -- if the ticket seen is still the next one, the comparison says whether a ticket is left
  have hiff : t.seen i = t.enq.head →
      (next t.br.prodMask g = t.br.consTail ↔ t.seen i + 1 = t.deq.done + 2 ^ k) := by
    intro hn
    rw [hn]
    exact h.shared.next_eq_iff (by rw [← hn]; exact hok.1)
  rw [access]
  split
  · next hnext =>
    refine h.to hpc ⟨hok, fun hn => ?_⟩ rfl rfl
    have hg : t.br.prodHead = g := by
      rw [← UInt32.toNat_inj, h.shared.prodHead, hok.1, hn]
      rfl
    have hfull : t.br.full = true := by
      rw [full, hg, hnext]
      exact beq_self_eq_true _
    refine ⟨?_, t.deq.done, Nat.le_refl _, h.shared.consTail, (hiff hn).mp hnext⟩
    rw [hfull, Bool.or_true]
  · next hnext =>
    refine h.to hpc ⟨hok, fun hn => ?_⟩ rfl rfl
    have hroom := h.shared.room
    have hne : t.seen i + 1 ≠ t.deq.done + 2 ^ k := fun heq => hnext ((hiff hn).mpr heq)
    have hn' : t.seen i = t.enq.head := hn
    show t.seen i + 1 < t.deq.done + 2 ^ k
    omega

theorem Inv.enqHeadAgain (h : Inv k t) (hpc : t.pc i = .enqHeadAgain b g c) :
    Inv k (t.after i (access t.br weak (.enqHeadAgain b g c))) := by
  have hok := h.ok_of hpc
  rw [access]
  split
  · exact h.to hpc (hok.mono_full (fun hfull => by rw [hfull]; rfl)) rfl rfl
  · next hne =>
    refine h.to hpc ⟨hok.1, fun hn => absurd ?_ hne⟩ rfl rfl
    rw [← UInt32.toNat_inj, h.shared.prodHead, hok.1.1, hn]
    rfl

theorem Inv.enqTailAgain (h : Inv k t) (hpc : t.pc i = .enqTailAgain b g c) :
    Inv k (t.after i (access t.br weak (.enqTailAgain b g c))) := by
  obtain ⟨hseen, hknown⟩ := h.ok_of hpc
  rw [access]
  split
  · exact h.to hpc trivial rfl rfl
  · next hne =>
    refine h.to hpc ⟨hseen, fun hn => ?_⟩ rfl rfl
    obtain ⟨-, d, hd, hc, hlen⟩ := hknown hn
    -- the tail has moved on since the first look
    have hd' : d ≠ t.deq.done := by
      rintro rfl
      exact hne (UInt32.toNat_inj.mp (hc.trans h.shared.consTail.symm))
    have hle : d ≤ t.deq.done := hd
    show t.seen i + 1 < t.deq.done + 2 ^ k
    omega

/-- The index that a thread has read is still that of the next ticket, if it has not gone round. -/
theorem Inv.seen_eq_enq_head (h : Inv k t) (hg : g.toNat = t.seen i % 2 ^ k)
    (hle : t.seen i ≤ t.enq.head) (hbehind : t.behind i < slots t.br)
    (htry : t.behind i = t.enq.head - t.seen i) (heq : t.br.prodHead = g) :
    t.seen i = t.enq.head := by
  rw [h.shared.sized.slots_eq, htry] at hbehind
  exact h.shared.eq_enq_head hg hle hbehind heq

theorem Inv.enqCas (h : Inv k t) (hpc : t.pc i = .enqCas b g)
    (ho : Orderly t i (t.after i (access t.br weak (.enqCas b g)))) :
    Inv k (t.after i (access t.br weak (.enqCas b g))) := by
  obtain ⟨hseen, hroom⟩ := h.ok_of hpc
  by_cases hcas : t.br.prodHead = g ∧ weak = false
  · rw [access, if_pos hcas] at ho ⊢
    have htook : t.enq.head < (t.enq.claim i b).head := by
      rw [Turnstile.head_claim]
      exact Nat.lt_succ_self _
    have hn : t.seen i = t.enq.head := by
      refine h.seen_eq_enq_head hseen.1 hseen.2 (ho.fresh (Or.inl htook)) ?_ hcas.1
      rw [Traced.behind, hpc]
    have hg : g.toNat = t.enq.head % 2 ^ k := by
      rw [← hn]
      exact hseen.1
    have hlt' : t.enq.head + 1 < t.deq.done + 2 ^ k := by
      rw [← hn]
      exact hroom hn
    refine h.after (h.shared.claimEnq hlt' hg) ?_ (fun j hne hown => hown.claimEnq hne h.shared.enq_le)
    have hown := h.own i
    rw [hpc, hn] at hown
    show Own (2 ^ k) _ i (t.seen i) _ (.enqStore b g) (t.returned i ++ [])
    rw [hn, List.append_nil]
    exact hown.claimEnq_self h.shared.enq_le
  · rw [access, if_neg hcas]
    exact h.to hpc trivial rfl rfl

theorem Inv.enqStore (h : Inv k t) (hpc : t.pc i = .enqStore b g) :
    Inv k (t.after i (access t.br weak (.enqStore b g))) := by
  obtain ⟨hg, hheld⟩ := h.ok_of hpc
  have hwin : t.enq.head ≤ t.enq.done + 2 ^ k := by
    have hroom := h.shared.room
    have hle := h.shared.deq_le.trans h.shared.le
    omega
  have hring : (t.br.put g b).ring = Function.update t.br.ring (t.seen i % 2 ^ k) b := by
    rw [← hg]
    rfl
  have hown := h.own i
  rw [hpc] at hown
  refine h.after (h.shared.store hheld hg) ?_ (fun j hne hother => ?_)
  · show Own (2 ^ k) ⟨t.enq, t.deq, (t.br.put g b).ring⟩ i (t.seen i) _ (.enqWait b g)
      (t.returned i ++ [])
    rw [hring, List.append_nil]
    exact hown.store_self
  · show Own (2 ^ k) ⟨t.enq, t.deq, (t.br.put g b).ring⟩ j _ _ _ _
    rw [hring]
    exact hother.store hne hheld hwin

theorem Inv.enqWait (h : Inv k t) (hpc : t.pc i = .enqWait b g) :
    Inv k (t.after i (access t.br weak (.enqWait b g))) := by
  have hok := h.ok_of hpc
  rw [access]
  split
  · exact h.to hpc hok rfl rfl
  · next heq =>
    have heq' : t.br.prodTail = g := not_not.mp heq
    obtain ⟨hg, hheld, hring⟩ := hok
    refine h.to hpc ⟨hg, hheld, hring, ?_⟩ rfl rfl
    have hroom := h.shared.room
    have hle := h.shared.deq_le.trans h.shared.le
    have hlt : t.seen i < t.enq.head := hheld.lt
    refine eq_of_mod_eq (l := t.enq.done) hheld.1 (by omega) (Nat.le_refl _)
      (Nat.lt_add_of_pos_right (Nat.two_pow_pos k)) ?_
    rw [← hg, ← heq', h.shared.prodTail]
    rfl

theorem Inv.enqPublish (h : Inv k t) (hpc : t.pc i = .enqPublish b g) :
    Inv k (t.after i (access t.br weak (.enqPublish b g))) := by
  obtain ⟨hg, hheld, hring, hn⟩ := h.ok_of hpc
  have hn' : t.seen i = t.enq.done := hn
  rw [hn'] at hg hheld hring
  have hown := h.own i
  rw [hpc] at hown
  exact h.after (h.shared.publishEnq hheld hring hg) hown.publishEnq_self
    (fun j hne hother => hother.publishEnq hne hheld)

/-! ### The accesses of a dequeue -/

theorem Inv.deqHead (h : Inv k t) {pc pc' : Pc α} (hpc : t.pc i = pc)
    (hcases : pc = .deqHead ∧ pc' = .deqTail t.br.consHead
      ∨ pc = .scHead ∧ pc' = .scTail t.br.consHead) :
    Inv k (t.after i ⟨t.br, pc', none, .sawConsHead⟩) := by
  have hpc' : (t.pc i).holdsEnq = false ∧ (t.pc i).holdsDeq = false := by
    rw [hpc]
    rcases hcases with ⟨rfl, -⟩ | ⟨rfl, -⟩
    · exact ⟨rfl, rfl⟩
    · exact ⟨rfl, rfl⟩
  have hseen : (t.toGhost.note i (.sawConsHead : Mark α)).seen i = t.deq.head :=
    Function.update_self _ _ _
  refine h.quiet ⟨t.br.drops, rfl⟩ (Or.inr ⟨Or.inr rfl, hpc'⟩) ?_ ?_ ?_ ⟨rfl, rfl⟩
  · rw [hseen]
    rcases hcases with ⟨-, rfl⟩ | ⟨-, rfl⟩
    · exact ⟨h.shared.consHead, Nat.le_refl _⟩
    · exact ⟨h.shared.consHead, rfl⟩
  · rw [hpc'.1]
    rcases hcases with ⟨-, rfl⟩ | ⟨-, rfl⟩
    · rfl
    · rfl
  · rw [hpc'.2]
    rcases hcases with ⟨-, rfl⟩ | ⟨-, rfl⟩
    · rfl
    · rfl

/-- A dequeue that returns `NULL`. -/
theorem Inv.deqNothing (h : Inv k t)
    (hpc : (t.pc i).holdsEnq = false ∧ (t.pc i).holdsDeq = false) :
    Inv k (t.after i ⟨t.br, .idle, some .nothing, .none⟩) :=
  h.quiet ⟨t.br.drops, rfl⟩ (Or.inl rfl) trivial hpc.1.symm hpc.2.symm ⟨rfl, rfl⟩

theorem Inv.deqTail (h : Inv k t) (hpc : t.pc i = .deqTail g) :
    Inv k (t.after i (access t.br weak (.deqTail g))) := by
  have hok := h.ok_of hpc
  rw [access]
  split
  · exact h.deqNothing (by rw [hpc]; exact ⟨rfl, rfl⟩)
  · next hne => exact h.to hpc ⟨hok, fun hn => h.shared.lt_of_ne hok.1 hne hn⟩ rfl rfl

theorem Inv.scTail (h : Inv k t) (hpc : t.pc i = .scTail g) :
    Inv k (t.after i (access t.br weak (.scTail g))) := by
  have hok := h.ok_of hpc
  rw [access]
  split
  · exact h.deqNothing (by rw [hpc]; exact ⟨rfl, rfl⟩)
  · next hne => exact h.to hpc ⟨hok.1, hok.2, h.shared.lt_of_ne hok.1 hne hok.2⟩ rfl rfl

/-- A consumer takes the next ticket. -/
theorem Inv.deqClaim (h : Inv k t) (halone : Alone t) {pc' : Pc α} (hn : t.seen i = t.deq.head)
    (hlt : t.deq.head < t.enq.done) (hg : g.toNat = t.deq.head % 2 ^ k)
    (hpc : (t.pc i).holdsEnq = false ∧ (t.pc i).holdsDeq = false)
    (hconsuming : (t.pc i).consuming = true) (hpc' : pc' = .deqLoad g ∨ pc' = .scLoad g) :
    Inv k (t.after i ⟨{ t.br with consHead := next t.br.consMask g }, pc', none, .tookCons⟩) := by
  refine h.after (h.shared.claimDeq hlt hg) ?_ (fun j hne hown => ?_)
  · have hown := h.own i
    rw [hn] at hown
    show Own (2 ^ k) _ i (t.seen i) _ pc' (t.returned i ++ [])
    rw [hn, List.append_nil]
    exact hown.claimDeq_self hg hpc hpc' h.shared.deq_le
  · refine hown.claimDeq hne h.shared.deq_le ?_
    -- nobody else is in `buf_ring_dequeue_sc`
    cases hsc : (t.pc j).single with
    | false => rfl
    | true => exact absurd (halone j i hsc hconsuming) hne

theorem Inv.deqCas (h : Inv k t) (halone : Alone t) (hpc : t.pc i = .deqCas g)
    (ho : Orderly t i (t.after i (access t.br weak (.deqCas g)))) :
    Inv k (t.after i (access t.br weak (.deqCas g))) := by
  obtain ⟨hseen, hlt⟩ := h.ok_of hpc
  by_cases hcas : t.br.consHead = g ∧ weak = false
  · rw [access, if_pos hcas] at ho ⊢
    have htook : t.deq.head < (t.deq.claim i (t.enq.items[t.deq.head]?.join)).head := by
      rw [Turnstile.head_claim]
      exact Nat.lt_succ_self _
    have hbehind := ho.fresh (Or.inr htook)
    rw [h.shared.sized.slots_eq, Traced.behind, hpc] at hbehind
    have hn : t.seen i = t.deq.head := h.shared.eq_deq_head hseen.1 hseen.2 hbehind hcas.1
    refine h.deqClaim halone hn ?_ ?_ ?_ ?_ (Or.inl rfl)
    · rw [← hn]
      exact hlt hn
    · rw [← hn]
      exact hseen.1
    · rw [hpc]
      exact ⟨rfl, rfl⟩
    · rw [hpc]
      rfl
  · rw [access, if_neg hcas]
    exact h.to hpc trivial rfl rfl

theorem Inv.scClaim (h : Inv k t) (halone : Alone t) (hpc : t.pc i = .scClaim g) :
    Inv k (t.after i (access t.br weak (.scClaim g))) := by
  obtain ⟨hg, hn, hlt⟩ := h.ok_of hpc
  have hn' : t.seen i = t.deq.head := hn
  rw [hn'] at hg hlt
  refine h.deqClaim halone hn hlt hg ?_ ?_ (Or.inr rfl)
  · rw [hpc]
    exact ⟨rfl, rfl⟩
  · rw [hpc]
    rfl

theorem Inv.deqLoad (h : Inv k t) (hpc : t.pc i = .deqLoad g) :
    Inv k (t.after i (access t.br weak (.deqLoad g))) := by
  obtain ⟨hg, x, hheld⟩ := h.ok_of hpc
  refine h.to hpc ⟨hg, ?_⟩ rfl rfl
  rw [hg, h.shared.ring_of_held hheld]
  exact hheld

/-- The only consumer holds the oldest ticket. -/
theorem Inv.scLoad (h : Inv k t) (halone : Alone t) (hpc : t.pc i = .scLoad g) :
    Inv k (t.after i (access t.br weak (.scLoad g))) := by
  obtain ⟨hg, x, hheld⟩ := h.ok_of hpc
  refine h.to hpc ⟨hg, ?_, ?_⟩ rfl rfl
  · rw [hg, h.shared.ring_of_held hheld]
    exact hheld
  · obtain ⟨j, y, holdest⟩ := Turnstile.exists_held (Nat.lt_of_le_of_lt hheld.1 hheld.lt)
    obtain ⟨hseen, hholds⟩ := (h.own j).deqHeld _ y holdest
    have hconsuming := Pc.consuming_of_holdsDeq hholds
    have hi := halone i j (by rw [hpc]; rfl) hconsuming
    rw [hi] at hseen
    exact hseen.symm

theorem Inv.deqWait {x : Option α} (h : Inv k t) (hpc : t.pc i = .deqWait g x) :
    Inv k (t.after i (access t.br weak (.deqWait g x))) := by
  have hok := h.ok_of hpc
  rw [access]
  split
  · exact h.to hpc hok rfl rfl
  · next heq =>
    have heq' : t.br.consTail = g := not_not.mp heq
    obtain ⟨hg, hheld⟩ := hok
    refine h.to hpc ⟨hg, hheld, ?_⟩ rfl rfl
    have hroom := h.shared.room
    have hle := h.shared.le.trans h.shared.enq_le
    have hlt : t.seen i < t.deq.head := hheld.lt
    refine eq_of_mod_eq (l := t.deq.done) hheld.1 (by omega) (Nat.le_refl _)
      (Nat.lt_add_of_pos_right (Nat.two_pow_pos k)) ?_
    rw [← hg, ← heq', h.shared.consTail]
    rfl

/-- A consumer hands its ticket back. -/
theorem Inv.deqPublish {x : Option α} (h : Inv k t)
    (hpc : t.pc i = .deqPublish g x ∨ t.pc i = .scPublish g x) :
    Inv k (t.after i ⟨{ t.br with consTail := next t.br.consMask g }, .idle, some (.dequeued x),
      .gaveCons⟩) := by
  have hok : g.toNat = t.seen i % 2 ^ k ∧ t.deq.Held i (t.seen i) x ∧ t.seen i = t.deq.done := by
    rcases hpc with hpc | hpc
    · exact h.ok_of hpc
    · exact h.ok_of hpc
  have hholds : (t.pc i).holdsEnq = false ∧ (t.pc i).holdsDeq = true := by
    rcases hpc with hpc | hpc
    · rw [hpc]
      exact ⟨rfl, rfl⟩
    · rw [hpc]
      exact ⟨rfl, rfl⟩
  obtain ⟨hg, hheld, hn⟩ := hok
  have holdest : t.deq.Held i t.deq.done x := hn ▸ hheld
  refine h.after (h.shared.publishDeq holdest.lt (hn ▸ hg)) ?_
    (fun j hne hother => hother.publishDeq hne holdest)
  exact (h.own i).publishDeq_self hheld hn hholds

end

/-- **Every access** of an orderly run keeps the invariant. -/
theorem Inv.access (h : Inv k t) (halone : Alone t) (i : ι) (weak : Bool) (hidle : t.pc i ≠ .idle)
    (ho : Orderly t i (t.after i (access t.br weak (t.pc i)))) :
    Inv k (t.after i (access t.br weak (t.pc i))) := by
  cases hpc : t.pc i with
  | idle => exact absurd hpc hidle
  | enqHead b => exact h.enqHead hpc
  | enqTail b g => exact h.enqTail hpc
  | enqHeadAgain b g c => exact h.enqHeadAgain hpc
  | enqTailAgain b g c => exact h.enqTailAgain hpc
  | dropsLoad b => exact h.to hpc trivial rfl rfl
  | dropsStore b d =>
      exact h.quiet ⟨d + 1, rfl⟩ (Or.inl rfl) trivial (by rw [hpc]; rfl) (by rw [hpc]; rfl) ⟨rfl, rfl⟩
  | enqCas b g =>
      rw [hpc] at ho
      exact h.enqCas hpc ho
  | enqStore b g => exact h.enqStore hpc
  | enqWait b g => exact h.enqWait hpc
  | enqPublish b g => exact h.enqPublish hpc
  | deqHead => exact h.deqHead hpc (Or.inl ⟨rfl, rfl⟩)
  | deqTail g => exact h.deqTail hpc
  | deqCas g =>
      rw [hpc] at ho
      exact h.deqCas halone hpc ho
  | deqLoad g => exact h.deqLoad hpc
  | deqWait g x => exact h.deqWait hpc
  | deqPublish g x => exact h.deqPublish (Or.inl hpc)
  | scHead => exact h.deqHead hpc (Or.inr ⟨rfl, rfl⟩)
  | scTail g => exact h.scTail hpc
  | scClaim g => exact h.scClaim halone hpc
  | scLoad g => exact h.scLoad halone hpc
  | scPublish g x => exact h.deqPublish (Or.inr hpc)

end

end CSearch.BufRing
