import CSearch.Basic.Search
import Mathlib.Logic.Relation

set_option autoImplicit false

/-! # Merging queues

The abstract form of a merge of several sorted inputs. A state has the live queues, in the order
in which they will be served, and the log of the items served so far, each with the owner of its
queue. A step serves the current item of the first queue; a queue that has more items is put back
at any place behind, one that has none is dropped.

* Nothing is lost and the order within a queue is kept: `Steps.held`.
* Every step serves one item, so there are as many steps as items: `Step.weight`.
* The log is in order exactly if the live queues are in order in every state on the way. In one
  direction the first queue always has a least item (`Step.logInOrder`); in the other, the items
  shown in a state are served later in the order in which they stand (`Steps.cur_sublist`).
-/

namespace CSearch.KMerge

section

variable {ι τ : Type}

/-- A queue: its owner, the item it shows, and the items to come. -/
structure Queue (ι τ : Type) where
  owner : ι
  cur : τ
  rest : List τ

/-- All items of a queue. -/
def Queue.items (q : Queue ι τ) : List τ := q.cur :: q.rest

/-- The live queues and the log. -/
structure State (ι τ : Type) where
  live : List (Queue ι τ)
  log : List (ι × τ)

/-- Serving one item. -/
inductive Step : State ι τ → State ι τ → Prop
  | last (i : ι) (x : τ) (qs : List (Queue ι τ)) (log : List (ι × τ)) :
      Step ⟨⟨i, x, []⟩ :: qs, log⟩ ⟨qs, log ++ [(i, x)]⟩
  | next (i : ι) (x y : τ) (ys : List τ) (qs : List (Queue ι τ)) (log : List (ι × τ)) (c : Nat)
      (hc : c ≤ qs.length) :
      Step ⟨⟨i, x, y :: ys⟩ :: qs, log⟩ ⟨qs.insertIdx c ⟨i, y, ys⟩, log ++ [(i, x)]⟩

/-- Any number of steps. -/
abbrev Steps : State ι τ → State ι τ → Prop := Relation.ReflTransGen Step

/-! ## Nothing is lost -/

/-- The owners of the live queues. -/
def State.owners (s : State ι τ) : List ι := s.live.map Queue.owner

/-- The number of items to be served. -/
def State.weight (s : State ι τ) : Nat := (s.live.map (fun q => q.items.length)).sum

/-- A step serves one item. -/
theorem Step.weight {s s' : State ι τ} (h : Step s s') : s.weight = s'.weight + 1 := by
  cases h with
  | last i x qs log =>
      simp only [State.weight, List.map_cons, List.sum_cons, Queue.items, List.length_cons,
        List.length_nil]
      omega
  | next i x y ys qs log c hc =>
      have hp := ((List.perm_insertIdx (⟨i, y, ys⟩ : Queue ι τ) qs hc).map
        (fun q => q.items.length)).sum_eq
      rw [State.weight, State.weight, hp]
      simp only [List.map_cons, List.sum_cons, Queue.items, List.length_cons]
      omega

/-- A step does not invent owners: the queue served stays or goes. -/
theorem Step.owners {s s' : State ι τ} (h : Step s s') :
    s'.owners.Perm s.owners ∨ ∃ i, s.owners = i :: s'.owners := by
  cases h with
  | last i x qs log => exact Or.inr ⟨i, rfl⟩
  | next i x y ys qs log c hc =>
      exact Or.inl ((List.perm_insertIdx (⟨i, y, ys⟩ : Queue ι τ) qs hc).map Queue.owner)

theorem Step.nodup {s s' : State ι τ} (h : Step s s') (hn : s.owners.Nodup) :
    s'.owners.Nodup := by
  rcases h.owners with hp | ⟨i, hi⟩
  · exact hp.nodup_iff.mpr hn
  · rw [hi] at hn
    exact (List.nodup_cons.mp hn).2

variable [DecidableEq ι]

/-- The items of a list of queues that belong to an owner. -/
def itemsOf (i : ι) (qs : List (Queue ι τ)) : List τ :=
  (qs.filter (fun q => q.owner = i)).flatMap Queue.items

/-- The items of a log that belong to an owner. -/
def servedOf (i : ι) (log : List (ι × τ)) : List τ :=
  (log.filter (fun e => e.1 = i)).map Prod.snd

/-- Everything an owner has in a state: what was served and what is to be served. -/
def State.held (s : State ι τ) (i : ι) : List τ := servedOf i s.log ++ itemsOf i s.live

theorem itemsOf_cons_self (i : ι) (x : τ) (xs : List τ) (qs : List (Queue ι τ)) :
    itemsOf i (⟨i, x, xs⟩ :: qs) = x :: xs ++ itemsOf i qs := by
  simp [itemsOf, Queue.items]

theorem itemsOf_cons_ne {i j : ι} (h : j ≠ i) (x : τ) (xs : List τ) (qs : List (Queue ι τ)) :
    itemsOf i (⟨j, x, xs⟩ :: qs) = itemsOf i qs := by
  simp [itemsOf, h]

theorem itemsOf_eq_nil {i : ι} {qs : List (Queue ι τ)} (h : i ∉ qs.map Queue.owner) :
    itemsOf i qs = [] := by
  have hf : qs.filter (fun q => q.owner = i) = [] := by
    rw [List.filter_eq_nil_iff]
    intro q hq
    simp only [decide_eq_true_eq]
    exact fun h' => h (h' ▸ List.mem_map_of_mem hq)
  rw [itemsOf, hf, List.flatMap_nil]

/-- Where a queue is inserted makes no difference to its owner if it is the only one. -/
theorem itemsOf_insertIdx (i : ι) (q : Queue ι τ) (qs : List (Queue ι τ)) (c : Nat)
    (hc : c ≤ qs.length) (h : q.owner ∉ qs.map Queue.owner) :
    itemsOf i (qs.insertIdx c q) = itemsOf i (q :: qs) := by
  induction qs generalizing c with
  | nil =>
      rw [List.length_nil, Nat.le_zero] at hc
      subst hc
      rfl
  | cons p qs ih =>
      cases c with
      | zero => rfl
      | succ c =>
          rw [List.map_cons, List.mem_cons, not_or] at h
          rw [List.length_cons] at hc
          rw [List.insertIdx_succ_cons]
          have hi := ih c (by omega) h.2
          obtain ⟨j, x, xs⟩ := p
          obtain ⟨k, y, ys⟩ := q
          have hkj : k ≠ j := h.1
          by_cases hj : j = i
          · subst hj
            rw [itemsOf_cons_self, hi, itemsOf_cons_ne hkj, itemsOf_cons_ne hkj,
              itemsOf_cons_self]
          · rw [itemsOf_cons_ne hj, hi]
            by_cases hk : k = i
            · subst hk
              rw [itemsOf_cons_self, itemsOf_cons_self, itemsOf_cons_ne hj]
            · rw [itemsOf_cons_ne hk, itemsOf_cons_ne hk, itemsOf_cons_ne hj]

/-- An owner has the items of its queue. -/
theorem itemsOf_of_mem {qs : List (Queue ι τ)} (hn : (qs.map Queue.owner).Nodup)
    {q : Queue ι τ} (hq : q ∈ qs) : itemsOf q.owner qs = q.items := by
  induction qs with
  | nil => simp at hq
  | cons p qs ih =>
      rw [List.map_cons, List.nodup_cons] at hn
      rcases List.mem_cons.mp hq with rfl | hmem
      · rw [itemsOf_cons_self, itemsOf_eq_nil hn.1, List.append_nil]
        rfl
      · have hne : p.owner ≠ q.owner := fun h => hn.1 (h ▸ List.mem_map_of_mem hmem)
        rw [itemsOf_cons_ne hne]
        exact ih hn.2 hmem

theorem servedOf_append_self (i : ι) (x : τ) (log : List (ι × τ)) :
    servedOf i (log ++ [(i, x)]) = servedOf i log ++ [x] := by
  simp [servedOf]

theorem servedOf_append_ne {i j : ι} (h : j ≠ i) (x : τ) (log : List (ι × τ)) :
    servedOf i (log ++ [(j, x)]) = servedOf i log := by
  simp [servedOf, h]

/-- A step moves one item of one owner from the queues to the log. -/
theorem Step.held {s s' : State ι τ} (h : Step s s') (hn : s.owners.Nodup) (i : ι) :
    s'.held i = s.held i := by
  cases h with
  | last j x qs log =>
      have hj : j ∉ qs.map Queue.owner := (List.nodup_cons.mp hn).1
      by_cases hij : j = i
      · subst hij
        simp only [State.held, servedOf_append_self, itemsOf_cons_self, itemsOf_eq_nil hj,
          List.append_nil]
      · simp only [State.held, servedOf_append_ne hij, itemsOf_cons_ne hij]
  | next j x y ys qs log c hc =>
      have hj : j ∉ qs.map Queue.owner := (List.nodup_cons.mp hn).1
      have hins := itemsOf_insertIdx i ⟨j, y, ys⟩ qs c hc hj
      by_cases hij : j = i
      · subst hij
        simp only [State.held, hins, servedOf_append_self, itemsOf_cons_self, itemsOf_eq_nil hj,
          List.append_assoc, List.append_nil, List.cons_append, List.nil_append]
      · simp only [State.held, hins, servedOf_append_ne hij, itemsOf_cons_ne hij]

/-- **Conservation**: what every owner has stays the same. -/
theorem Steps.held {s t : State ι τ} (h : Steps s t) (hn : s.owners.Nodup) (i : ι) :
    t.held i = s.held i := by
  induction h using Relation.ReflTransGen.head_induction_on with
  | refl => rfl
  | head hstep _ ih => rw [ih (hstep.nodup hn), hstep.held hn]

/-- When nothing is live any more, the log has everything. -/
theorem Steps.servedOf_eq {s t : State ι τ} (h : Steps s t) (hn : s.owners.Nodup)
    (hlog : s.log = []) (hdone : t.live = []) (i : ι) :
    servedOf i t.log = itemsOf i s.live := by
  have := h.held hn i
  simpa [State.held, hlog, hdone, servedOf, itemsOf] using this

end

/-! ## Order -/

section

variable {ι τ : Type} {r : τ → τ → Prop}

/-- The live queues are in the order of the items they show. -/
def State.InOrder (r : τ → τ → Prop) (s : State ι τ) : Prop := (s.live.map Queue.cur).Pairwise r

/-- Every queue is in order. -/
def State.QueuesInOrder (r : τ → τ → Prop) (s : State ι τ) : Prop :=
  ∀ q ∈ s.live, q.items.Pairwise r

/-- The log is in order, and what is shown now comes after it. -/
structure State.LogInOrder (r : τ → τ → Prop) (s : State ι τ) : Prop where
  log : (s.log.map Prod.snd).Pairwise r
  cur : ∀ x ∈ s.log.map Prod.snd, ∀ q ∈ s.live, r x q.cur

theorem Step.queuesInOrder {s s' : State ι τ} (h : Step s s') (hq : s.QueuesInOrder r) :
    s'.QueuesInOrder r := by
  cases h with
  | last i x qs log => exact fun q hmem => hq q (List.mem_cons_of_mem _ hmem)
  | next i x y ys qs log c hc =>
      intro q hmem
      rcases (List.mem_insertIdx hc).mp hmem with rfl | hmem
      · exact (List.pairwise_cons.mp (hq _ List.mem_cons_self)).2
      · exact hq q (List.mem_cons_of_mem _ hmem)

/-- Serving a least item keeps the log in order. -/
theorem Step.logInOrder [IsTrans τ r] {s s' : State ι τ} (h : Step s s') (hq : s.QueuesInOrder r)
    (hlive : s.InOrder r) (hlog : s.LogInOrder r) : s'.LogInOrder r := by
  have hnew : ∀ (i : ι) (x : τ) (log : List (ι × τ)), (log.map Prod.snd).Pairwise r →
      (∀ z ∈ log.map Prod.snd, r z x) → ((log ++ [(i, x)]).map Prod.snd).Pairwise r := by
    intro i x log h1 h2
    rw [List.map_append, List.pairwise_append]
    refine ⟨h1, List.pairwise_singleton _ _, fun z hz w hw => ?_⟩
    rw [List.map_singleton, List.mem_singleton] at hw
    rw [hw]
    exact h2 z hz
  cases h with
  | last i x qs log =>
      have hfront := fun z hz => hlog.cur z hz _ List.mem_cons_self
      refine ⟨hnew i x log hlog.log hfront, fun z hz q hmem => ?_⟩
      rw [List.map_append, List.mem_append, List.map_singleton, List.mem_singleton] at hz
      rcases hz with hz | rfl
      · exact hlog.cur z hz q (List.mem_cons_of_mem _ hmem)
      · exact (List.pairwise_cons.mp hlive).1 q.cur (List.mem_map_of_mem hmem)
  | next i x y ys qs log c hc =>
      have hfront := fun z hz => hlog.cur z hz _ List.mem_cons_self
      have hxy : r x y := (List.pairwise_cons.mp (hq _ List.mem_cons_self)).1 y List.mem_cons_self
      refine ⟨hnew i x log hlog.log hfront, fun z hz q hmem => ?_⟩
      rw [List.map_append, List.mem_append, List.map_singleton, List.mem_singleton] at hz
      rcases (List.mem_insertIdx hc).mp hmem with rfl | hold
      · -- the item that is new to the front comes after the one just served
        rcases hz with hz | rfl
        · exact IsTrans.trans _ _ _ (hfront z hz) hxy
        · exact hxy
      · rcases hz with hz | rfl
        · exact hlog.cur z hz q (List.mem_cons_of_mem _ hold)
        · exact (List.pairwise_cons.mp hlive).1 q.cur (List.mem_map_of_mem hold)

/-- What is shown now is served later, in the order in which it stands. -/
theorem Steps.cur_sublist {s t : State ι τ} (h : Steps s t) (hdone : t.live = []) :
    ∃ out, t.log = s.log ++ out ∧ (s.live.map Queue.cur).Sublist (out.map Prod.snd) := by
  -- from the end: a step serves the front and keeps the other items in their order
  induction h using Relation.ReflTransGen.head_induction_on with
  | refl => exact ⟨[], by simp, by simp [hdone]⟩
  | head hstep _ ih =>
      obtain ⟨out, hout, hsub⟩ := ih
      cases hstep with
      | last i x qs log =>
          exact ⟨(i, x) :: out, by rw [hout]; simp, hsub.cons_cons x⟩
      | next i x y ys qs log c hc =>
          refine ⟨(i, x) :: out, by rw [hout]; simp, List.Sublist.cons_cons x ?_⟩
          exact ((List.sublist_insertIdx qs c _).map Queue.cur).trans hsub

end

end CSearch.KMerge
