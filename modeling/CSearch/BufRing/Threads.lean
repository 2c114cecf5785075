import Mathlib.Data.Fintype.Basic
import CSearch.BufRing.Ring

set_option autoImplicit false

/-! # The ring of `buf_ring.h` used by many threads

Any number of threads call `buf_ring_enqueue`, `buf_ring_dequeue_mc` and `buf_ring_dequeue_sc`, again
and again. A step is one access of one thread to the ring (`access`), so that a run is any
interleaving of accesses. Accesses take effect one after the other; that the source asks for relaxed
atomics only, and so leaves more freedom to the machine, is not modelled.

`continue` in a `do … while` loop goes to the condition. So an enqueue that finds the ring full, but
the indices changed at a second look, does not start again: it tries the exchange with the old index.

The indices are remainders. An index that is the same as before may have gone round in the meantime,
and an exchange then succeeds although it should not. `Traced` adds to a state what is needed to say
when this happens: the tickets taken, and how far a thread has fallen behind since it read an index
(`behind`). A run is orderly if no exchange succeeds in this way and `buf_ring_dequeue_sc` is called
as its comment demands (`Orderly`).
-/

namespace CSearch.BufRing

variable {ι α : Type}

/-! ## One thread -/

/-- Where a thread stands: the next access it makes, and its local variables. -/
inductive Pc (α : Type)
  | idle
  -- `buf_ring_enqueue`: the two loads of an attempt
  | enqHead (buf : Option α)
  | enqTail (buf : Option α) (prodHead : UInt32)
  -- the ring looks full: the second look at `br_prod_head`, then at `br_cons_tail`
  | enqHeadAgain (buf : Option α) (prodHead consTail : UInt32)
  | enqTailAgain (buf : Option α) (prodHead consTail : UInt32)
  -- `br_drops++` loads and stores
  | dropsLoad (buf : Option α)
  | dropsStore (buf : Option α) (drops : UInt64)
  -- the condition of the loop
  | enqCas (buf : Option α) (prodHead : UInt32)
  -- the store to the slot, the loop that waits, the store to `br_prod_tail`
  | enqStore (buf : Option α) (prodHead : UInt32)
  | enqWait (buf : Option α) (prodHead : UInt32)
  | enqPublish (buf : Option α) (prodHead : UInt32)
  -- `buf_ring_dequeue_mc`
  | deqHead
  | deqTail (consHead : UInt32)
  | deqCas (consHead : UInt32)
  | deqLoad (consHead : UInt32)
  | deqWait (consHead : UInt32) (buf : Option α)
  | deqPublish (consHead : UInt32) (buf : Option α)
  -- `buf_ring_dequeue_sc`
  | scHead
  | scTail (consHead : UInt32)
  | scClaim (consHead : UInt32)
  | scLoad (consHead : UInt32)
  | scPublish (consHead : UInt32) (buf : Option α)

/-- What a call has returned, with the argument of an enqueue. -/
inductive Outcome (α : Type)
  | enqueued (buf : Option α)
  | dropped (buf : Option α)
  | dequeued (buf : Option α)
  | nothing

/-- What an access means for the tickets. It has no influence on what a thread does. -/
inductive Mark (α : Type)
  | none
  | sawProdHead
  | tookProd (buf : Option α)
  | gaveProd
  | sawConsHead
  | tookCons
  | gaveCons

/-- The effect of an access: the ring, where the thread stands now, and what it has returned if its
call is over. -/
structure Effect (α : Type) where
  br : BufRing α
  pc : Pc α
  out : Option (Outcome α)
  mark : Mark α

/-- The effect of an access that only moves the thread. -/
def Effect.to (br : BufRing α) (pc : Pc α) : Effect α := ⟨br, pc, none, .none⟩

/-- The next access of a thread. `weak` is whether a weak exchange fails without a reason. -/
def access (br : BufRing α) (weak : Bool) : Pc α → Effect α
  | .idle => .to br .idle
  | .enqHead buf => ⟨br, .enqTail buf br.prodHead, none, .sawProdHead⟩
  | .enqTail buf prodHead =>
      if next br.prodMask prodHead = br.consTail then
        .to br (.enqHeadAgain buf prodHead br.consTail)
      else .to br (.enqCas buf prodHead)
  | .enqHeadAgain buf prodHead consTail =>
      if prodHead = br.prodHead then .to br (.enqTailAgain buf prodHead consTail)
      else .to br (.enqCas buf prodHead) -- `continue`
  | .enqTailAgain buf prodHead consTail =>
      if consTail = br.consTail then .to br (.dropsLoad buf)
      else .to br (.enqCas buf prodHead) -- `continue`
  | .dropsLoad buf => .to br (.dropsStore buf br.drops)
  | .dropsStore buf drops => ⟨{ br with drops := drops + 1 }, .idle, some (.dropped buf), .none⟩
  | .enqCas buf prodHead =>
      if br.prodHead = prodHead ∧ weak = false then
        ⟨{ br with prodHead := next br.prodMask prodHead }, .enqStore buf prodHead, none,
          .tookProd buf⟩
      else .to br (.enqHead buf)
  | .enqStore buf prodHead => .to (br.put prodHead buf) (.enqWait buf prodHead)
  | .enqWait buf prodHead =>
      if br.prodTail ≠ prodHead then .to br (.enqWait buf prodHead)
      else .to br (.enqPublish buf prodHead)
  | .enqPublish buf prodHead =>
      ⟨{ br with prodTail := next br.prodMask prodHead }, .idle, some (.enqueued buf), .gaveProd⟩
  | .deqHead => ⟨br, .deqTail br.consHead, none, .sawConsHead⟩
  | .deqTail consHead =>
      if consHead = br.prodTail then ⟨br, .idle, some .nothing, .none⟩
      else .to br (.deqCas consHead)
  | .deqCas consHead =>
      if br.consHead = consHead ∧ weak = false then
        ⟨{ br with consHead := next br.consMask consHead }, .deqLoad consHead, none, .tookCons⟩
      else .to br .deqHead
  | .deqLoad consHead => .to br (.deqWait consHead (br.ring consHead.toNat))
  | .deqWait consHead buf =>
      if br.consTail ≠ consHead then .to br (.deqWait consHead buf)
      else .to br (.deqPublish consHead buf)
  | .deqPublish consHead buf =>
      ⟨{ br with consTail := next br.consMask consHead }, .idle, some (.dequeued buf), .gaveCons⟩
  | .scHead => ⟨br, .scTail br.consHead, none, .sawConsHead⟩
  | .scTail consHead =>
      if consHead = br.prodTail then ⟨br, .idle, some .nothing, .none⟩
      else .to br (.scClaim consHead)
  | .scClaim consHead =>
      ⟨{ br with consHead := next br.consMask consHead }, .scLoad consHead, none, .tookCons⟩
  | .scLoad consHead => .to br (.scPublish consHead (br.ring consHead.toNat))
  | .scPublish consHead buf =>
      ⟨{ br with consTail := next br.consMask consHead }, .idle, some (.dequeued buf), .gaveCons⟩

/-- The access with which a call ends. -/
theorem access_out {br : BufRing α} {weak : Bool} {pc : Pc α} {o : Outcome α}
    (h : (access br weak pc).out = some o) :
    match o with
    | .enqueued b => ∃ g, pc = .enqPublish b g
    | .dropped b => ∃ d, pc = .dropsStore b d
    | .dequeued b => ∃ g, pc = .deqPublish g b ∨ pc = .scPublish g b
    | .nothing => ∃ g, (pc = .deqTail g ∨ pc = .scTail g) ∧ g = br.prodTail := by
  cases pc with
  | dropsStore b d => cases h; exact ⟨d, rfl⟩
  | enqPublish b g => cases h; exact ⟨g, rfl⟩
  | deqPublish g b => cases h; exact ⟨g, Or.inl rfl⟩
  | scPublish g b => cases h; exact ⟨g, Or.inr rfl⟩
  | deqTail g =>
      rw [access] at h
      split at h
      · next heq => cases h; exact ⟨g, Or.inl rfl, heq⟩
      · cases h
  | scTail g =>
      rw [access] at h
      split at h
      · next heq => cases h; exact ⟨g, Or.inr rfl, heq⟩
      · cases h
  | enqTail b g => rw [access] at h; split at h <;> cases h
  | enqHeadAgain b g c => rw [access] at h; split at h <;> cases h
  | enqTailAgain b g c => rw [access] at h; split at h <;> cases h
  | enqCas b g => rw [access] at h; split at h <;> cases h
  | enqWait b g => rw [access] at h; split at h <;> cases h
  | deqCas g => rw [access] at h; split at h <;> cases h
  | deqWait g b => rw [access] at h; split at h <;> cases h
  | _ => cases h

/-- The thread waits in one of the two loops with `cpu_relax`. -/
def Pc.waiting : Pc α → Bool
  | .enqWait _ _ | .deqWait _ _ => true
  | _ => false

/-- Any other access takes the thread on. -/
theorem access_moves {br : BufRing α} {weak : Bool} {pc : Pc α} (hidle : pc ≠ .idle)
    (hwait : pc.waiting = false) : (access br weak pc).pc ≠ pc := by
  cases pc with
  | idle => exact absurd rfl hidle
  | enqWait b g => cases hwait
  | deqWait g b => cases hwait
  | enqTail b g => rw [access]; split <;> exact nofun
  | enqHeadAgain b g c => rw [access]; split <;> exact nofun
  | enqTailAgain b g c => rw [access]; split <;> exact nofun
  | enqCas b g => rw [access]; split <;> exact nofun
  | deqTail g => rw [access]; split <;> exact nofun
  | deqCas g => rw [access]; split <;> exact nofun
  | scTail g => rw [access]; split <;> exact nofun
  | _ => exact nofun

/-! ## All threads -/

/-- A call. -/
inductive Call (α : Type)
  | enqueue (buf : Option α)
  | dequeueMc
  | dequeueSc

/-- Where a call starts. -/
def Call.start : Call α → Pc α
  | .enqueue buf => .enqHead buf
  | .dequeueMc => .deqHead
  | .dequeueSc => .scHead

/-- What a thread does next: it makes a call, or the next access of the call it is in. -/
inductive Act (α : Type)
  | call (c : Call α)
  | access (weak : Bool)

/-- The ring, the threads, and what their finished calls have returned. -/
structure State (ι α : Type) where
  br : BufRing α
  pc : ι → Pc α
  returned : ι → List (Outcome α)

section

variable [DecidableEq ι]

/-- A step of thread `i`. Only a thread without a call can make one. -/
def State.step (s : State ι α) (i : ι) : Act α → Option (State ι α)
  | .call c =>
      match s.pc i with
      | .idle => some { s with pc := Function.update s.pc i c.start }
      | _ => none
  | .access weak =>
      match s.pc i with
      | .idle => none
      | pc =>
          let e := access s.br weak pc
          some { br := e.br, pc := Function.update s.pc i e.pc,
                 returned := Function.update s.returned i (s.returned i ++ e.out.toList) }

/-- An interleaving: whose turn it is, and what that thread does. -/
def State.run (s : State ι α) : List (ι × Act α) → Option (State ι α)
  | [] => some s
  | (i, a) :: sched => (s.step i a).bind (fun s' => s'.run sched)

end

/-- A ring and threads that have made no call. -/
def State.init (br : BufRing α) : State ι α :=
  { br := br, pc := fun _ => .idle, returned := fun _ => [] }

/-! ## Tickets -/

/-- What the proofs keep in mind: the tickets of the producers with their pointers, those of the
consumers with the pointers they are to get, the ticket each thread saw when it last read
`br_prod_head` or `br_cons_head`, and whether the ring has been full since its call began. -/
structure Ghost (ι α : Type) where
  enq : Turnstile ι (Option α)
  deq : Turnstile ι (Option α)
  seen : ι → Nat
  sawFull : ι → Bool

/-- A state with its tickets. -/
structure Traced (ι α : Type) extends State ι α, Ghost ι α

section

variable [DecidableEq ι]

/-- The tickets after an access of thread `i`. A consumer is to get the pointer with the number of
its own ticket. -/
def Ghost.note (g : Ghost ι α) (i : ι) : Mark α → Ghost ι α
  | .none => g
  | .sawProdHead => { g with seen := Function.update g.seen i g.enq.head }
  | .tookProd buf => { g with enq := g.enq.claim i buf }
  | .gaveProd => { g with enq := g.enq.publish }
  | .sawConsHead => { g with seen := Function.update g.seen i g.deq.head }
  | .tookCons => { g with deq := g.deq.claim i (g.enq.items[g.deq.head]?.join) }
  | .gaveCons => { g with deq := g.deq.publish }

/-- The state after a call of thread `i` has begun. -/
def Traced.begin (t : Traced ι α) (i : ι) (c : Call α) : Traced ι α :=
  { t with pc := Function.update t.pc i c.start, sawFull := Function.update t.sawFull i t.br.full }

/-- The state after an access of thread `i`. -/
def Traced.after (t : Traced ι α) (i : ι) (e : Effect α) : Traced ι α :=
  let g := t.toGhost.note i e.mark
  { br := e.br, pc := Function.update t.pc i e.pc,
    returned := Function.update t.returned i (t.returned i ++ e.out.toList),
    enq := g.enq, deq := g.deq, seen := g.seen, sawFull := fun j => t.sawFull j || e.br.full }

/-- A step with its tickets. -/
def Traced.step (t : Traced ι α) (i : ι) : Act α → Option (Traced ι α)
  | .call c =>
      match t.pc i with
      | .idle => some (t.begin i c)
      | _ => none
  | .access weak =>
      match t.pc i with
      | .idle => none
      | pc => some (t.after i (access t.br weak pc))

end

def Traced.init (br : BufRing α) : Traced ι α :=
  { State.init br with enq := .new, deq := .new, seen := fun _ => 0, sawFull := fun _ => false }

section

variable [DecidableEq ι] {t t' : Traced ι α} {i : ι}

/-- What a step does: a call begins, or an access is made. -/
theorem step_cases {a : Act α} (h : t.step i a = some t') :
    (∃ c, t.pc i = .idle ∧ t' = t.begin i c)
      ∨ ∃ weak, t.pc i ≠ .idle ∧ t' = t.after i (access t.br weak (t.pc i)) := by
  cases a with
  | call c =>
      left
      simp only [Traced.step] at h
      split at h
      · next hpc => exact ⟨c, hpc, (Option.some.inj h).symm⟩
      · exact absurd h (by simp)
  | access weak =>
      right
      simp only [Traced.step] at h
      split at h
      · exact absurd h (by simp)
      · next hpc => exact ⟨weak, hpc, (Option.some.inj h).symm⟩

/-- A step after which a call of thread `i` has returned `o`. -/
theorem step_returns {a : Act α} {o : Outcome α} (h : t.step i a = some t')
    (hout : t'.returned i = t.returned i ++ [o]) :
    ∃ weak, t' = t.after i (access t.br weak (t.pc i))
      ∧ (access t.br weak (t.pc i)).out = some o := by
  rcases step_cases h with ⟨c, -, rfl⟩ | ⟨weak, -, rfl⟩
  · exact absurd (List.self_eq_append_right.mp hout) (List.cons_ne_nil _ _)
  · refine ⟨weak, rfl, ?_⟩
    have hret : Function.update t.returned i
        (t.returned i ++ (access t.br weak (t.pc i)).out.toList) i = t.returned i ++ [o] := hout
    rw [Function.update_self, List.append_cancel_left_eq] at hret
    exact Option.toList_eq_singleton_iff.mp hret

/-- The tickets have no influence: a step with tickets is a step. -/
theorem step_toState (t : Traced ι α) (i : ι) (a : Act α) :
    (t.step i a).map Traced.toState = t.toState.step i a := by
  cases a with
  | call c =>
      unfold Traced.step State.step
      cases t.pc i <;> rfl
  | access weak =>
      unfold Traced.step State.step
      cases t.pc i <;> rfl

end

/-! ## Orderly runs -/

/-- The number of slots. -/
def slots (br : BufRing α) : Nat := br.prodSize.toUInt32.toNat

/-- The tickets taken by others since a thread that tries to take one has read the index. -/
def Traced.behind (t : Traced ι α) (i : ι) : Nat :=
  match t.pc i with
  | .enqTail _ _ | .enqHeadAgain _ _ _ | .enqTailAgain _ _ _ | .enqCas _ _ =>
      t.enq.head - t.seen i
  | .deqTail _ | .deqCas _ => t.deq.head - t.seen i
  | _ => 0

/-- The thread is in `buf_ring_dequeue_sc`. -/
def Pc.single : Pc α → Bool
  | .scHead | .scTail _ | .scClaim _ | .scLoad _ | .scPublish _ _ => true
  | _ => false

/-- The thread is in one of the dequeues. -/
def Pc.consuming : Pc α → Bool
  | .deqHead | .deqTail _ | .deqCas _ | .deqLoad _ | .deqWait _ _ | .deqPublish _ _ => true
  | pc => pc.single

/-- A thread in `buf_ring_dequeue_sc` is the only consumer, as its comment demands. -/
def Alone (t : Traced ι α) : Prop :=
  ∀ i j, (t.pc i).single = true → (t.pc j).consuming = true → j = i

/-- The thread has found the ring full, and `br_prod_head` unchanged at its second look. -/
def Pc.gaveUp : Pc α → Bool
  | .enqTailAgain _ _ _ | .dropsLoad _ | .dropsStore _ _ => true
  | _ => false

/-- Only the second look at `br_prod_head` leads there. -/
theorem access_gaveUp {br : BufRing α} {weak : Bool} {pc : Pc α} (h : pc.gaveUp = false)
    (h' : (access br weak pc).pc.gaveUp = true) :
    ∃ b g c, pc = .enqHeadAgain b g c ∧ g = br.prodHead := by
  cases pc with
  | enqHeadAgain b g c =>
      rw [access] at h'
      split at h'
      · next heq => exact ⟨b, g, c, rfl, heq⟩
      · cases h'
  | enqTailAgain b g c => cases h
  | dropsLoad b => cases h
  | dropsStore b d => cases h'
  | enqTail b g => rw [access] at h'; split at h' <;> cases h'
  | enqCas b g => rw [access] at h'; split at h' <;> cases h'
  | enqWait b g => rw [access] at h'; split at h' <;> cases h'
  | deqTail g => rw [access] at h'; split at h' <;> cases h'
  | deqCas g => rw [access] at h'; split at h' <;> cases h'
  | deqWait g b => rw [access] at h'; split at h' <;> cases h'
  | scTail g => rw [access] at h'; split at h' <;> cases h'
  | _ => cases h'

/-- The step of thread `i` from `t` to `t'` is orderly: if it takes a ticket, the index has not gone
round since the thread read it, and a thread in `buf_ring_dequeue_sc` stays the only consumer. A
thread that was overtaken may go on as long as its exchange fails. -/
structure Orderly (t : Traced ι α) (i : ι) (t' : Traced ι α) : Prop where
  fresh : t.enq.head < t'.enq.head ∨ t.deq.head < t'.deq.head → t.behind i < slots t.br
  alone : Alone t'

/-- The step is orderly, and if it is a second look that finds `br_prod_head` unchanged, the index has
not gone round either. No exchange need follow such a look: an enqueue that it deceives may return
`-1` although the ring has never been full. -/
structure Watchful (t : Traced ι α) (i : ι) (t' : Traced ι α) : Prop extends Orderly t i t' where
  look : (t.pc i).gaveUp = false → (t'.pc i).gaveUp = true → t.behind i < slots t.br

section

variable [DecidableEq ι] {P Q : Traced ι α → ι → Traced ι α → Prop}

/-- A run from one state to another, all of whose steps have the property `P`. -/
inductive Leads (P : Traced ι α → ι → Traced ι α → Prop) : Traced ι α → Traced ι α → Prop
  | refl (t : Traced ι α) : Leads P t t
  | step {t t' t'' : Traced ι α} {i : ι} {a : Act α} (h : Leads P t t')
      (hstep : t'.step i a = some t'') (hP : P t' i t'') : Leads P t t''

/-- The states that such runs lead to from a ring without calls. -/
def Reaches (P : Traced ι α → ι → Traced ι α → Prop) (br : BufRing α) (t : Traced ι α) : Prop :=
  Leads P (Traced.init br) t

theorem Leads.mono {t t' : Traced ι α} (h : Leads P t t') (hPQ : ∀ t i t', P t i t' → Q t i t') :
    Leads Q t t' := by
  induction h with
  | refl => exact .refl _
  | step _ hstep hP ih => exact .step ih hstep (hPQ _ _ _ hP)

/-- A run that stops before the first step without the property. -/
def Traced.runWhile (P : Traced ι α → ι → Traced ι α → Prop) [∀ t i t', Decidable (P t i t')]
    (t : Traced ι α) : List (ι × Act α) → Option (Traced ι α)
  | [] => some t
  | (i, a) :: sched =>
      (t.step i a).bind (fun t' => if P t i t' then t'.runWhile P sched else none)

theorem Leads.runWhile [∀ t i t', Decidable (P t i t')] {t₀ t t' : Traced ι α} (h : Leads P t₀ t)
    {sched : List (ι × Act α)} (hrun : t.runWhile P sched = some t') : Leads P t₀ t' := by
  induction sched generalizing t with
  | nil =>
      rw [← Option.some.inj hrun]
      exact h
  | cons x sched ih =>
      obtain ⟨i, a⟩ := x
      rw [Traced.runWhile, Option.bind_eq_some_iff] at hrun
      obtain ⟨t₁, hstep, hrest⟩ := hrun
      split at hrest
      · next hP => exact ih (.step h hstep hP) hrest
      · cases hrest

end

section

variable [DecidableEq ι] [Fintype ι]

instance (t : Traced ι α) : Decidable (Alone t) :=
  inferInstanceAs (Decidable (∀ i j, (t.pc i).single = true → (t.pc j).consuming = true → j = i))

instance (t t' : Traced ι α) (i : ι) : Decidable (Orderly t i t') :=
  decidable_of_iff
    ((t.enq.head < t'.enq.head ∨ t.deq.head < t'.deq.head → t.behind i < slots t.br) ∧ Alone t')
    ⟨fun h => ⟨h.1, h.2⟩, fun h => ⟨h.fresh, h.alone⟩⟩

instance (t t' : Traced ι α) (i : ι) : Decidable (Watchful t i t') :=
  decidable_of_iff
    (Orderly t i t'
      ∧ ((t.pc i).gaveUp = false → (t'.pc i).gaveUp = true → t.behind i < slots t.br))
    ⟨fun h => ⟨h.1, h.2⟩, fun h => ⟨h.toOrderly, h.look⟩⟩

end

end CSearch.BufRing
