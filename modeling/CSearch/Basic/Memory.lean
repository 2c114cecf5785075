import Mathlib.Tactic
import Mathlib.Data.List.Basic
import Mathlib.Data.List.TakeDrop

set_option autoImplicit false

/-! # Byte memory

A piece of memory is a total function from addresses to bytes: what lies behind a buffer is
part of it, with a value nothing is known about. Three operations are needed.

* `Mem.le m p k`: the number whose `k` little-endian bytes start at address `p`.
* `Mem.store m p bs`: the bytes `bs` written at address `p`.
* `Mem.load m p n`: the `n` bytes from address `p` on, as a list.

`leBytes k v` is the list of the `k` little-endian bytes of `v`, so that `Mem.le` reads back
what `Mem.store` of `leBytes` has written (`Mem.le_of_holds`). `leWords` and `wordAt` lay out and
read a `struct` of 32-bit fields, `Mem.words` is an array of them. `ZString` is a string without its
terminator, `Mem.HoldsString` says that one stands in memory, and `Mem.cstring` reads it.

A `Heap` is what the allocator returns: memory of unknown contents, and how far a program may go
beyond the end of an object before something breaks. A program that goes further has no result.
-/

namespace CSearch

/-- Memory: one byte for every address. -/
abbrev Mem : Type := Nat → UInt8

/-- The `k` little-endian bytes of `v`; what does not fit in them is cut off. -/
def leBytes : Nat → Nat → List UInt8
  | 0, _ => []
  | k + 1, v => UInt8.ofNat v :: leBytes k (v / 256)

@[simp] theorem leBytes_length (k v : Nat) : (leBytes k v).length = k := by
  induction k generalizing v with
  | zero => rfl
  | succ k ih => simp [leBytes, ih]

/-- The number a list of little-endian bytes stands for. -/
def leVal : List UInt8 → Nat
  | [] => 0
  | b :: bs => b.toNat + 256 * leVal bs

theorem leVal_leBytes (k v : Nat) : leVal (leBytes k v) = v % 256 ^ k := by
  induction k generalizing v with
  | zero => simp [leBytes, leVal, Nat.mod_one]
  | succ k ih =>
      rw [leBytes, leVal, ih, UInt8.toNat_ofNat', pow_succ' 256 k, Nat.mod_mul]

/-! ## Structs of 32-bit words -/

/-- The bytes of a `struct` of 32-bit fields. -/
def leWords (ws : List UInt32) : List UInt8 := ws.flatMap (fun w => leBytes 4 w.toNat)

/-- The 32-bit field number `i` of a `struct`. -/
def wordAt (bs : List UInt8) (i : Nat) : UInt32 := UInt32.ofNat (leVal ((bs.drop (4 * i)).take 4))

theorem leWords_cons (w : UInt32) (ws : List UInt32) :
    leWords (w :: ws) = leBytes 4 w.toNat ++ leWords ws := by
  simp [leWords]

@[simp] theorem leWords_length (ws : List UInt32) : (leWords ws).length = 4 * ws.length := by
  induction ws with
  | nil => rfl
  | cons w ws ih =>
      rw [leWords_cons, List.length_append, leBytes_length, ih, List.length_cons]
      omega

/-- A field is read back from the bytes of its `struct`. -/
theorem wordAt_leWords (ws : List UInt32) (i : Nat) (w : UInt32) (h : ws[i]? = some w) :
    wordAt (leWords ws) i = w := by
  induction ws generalizing i with
  | nil => simp at h
  | cons w' ws ih =>
      rw [wordAt, leWords_cons]
      cases i with
      | zero =>
          rw [List.getElem?_cons_zero, Option.some.injEq] at h
          have hw : w.toNat < 256 ^ 4 := w.toNat_lt
          rw [h, Nat.mul_zero, List.drop_zero, List.take_left' (leBytes_length 4 _), leVal_leBytes,
            Nat.mod_eq_of_lt hw, UInt32.ofNat_toNat]
      | succ i =>
          rw [List.getElem?_cons_succ] at h
          have hdrop : (leBytes 4 w'.toNat ++ leWords ws).drop (4 * (i + 1))
              = (leWords ws).drop (4 * i) := by
            rw [show 4 * (i + 1) = (leBytes 4 w'.toNat).length + 4 * i by
              rw [leBytes_length]; omega, List.drop_append, List.drop_eq_nil_of_le (by omega)]
            simp
          rw [hdrop]
          exact ih i h

/-! ## Strings -/

/-- The characters of a zero-terminated string. -/
structure ZString (α : Type) [OfNat α 0] where
  chars : List α
  nonzero : 0 ∉ chars

/-- A string of `char`. -/
abbrev CString : Type := ZString UInt8

namespace Mem

/-- The number stored in the `k` bytes from address `p` on, least significant byte first. -/
def le (m : Mem) (p : Nat) : Nat → Nat
  | 0 => 0
  | k + 1 => (m p).toNat + 256 * m.le (p + 1) k

/-- The `n` bytes from address `p` on. -/
def load (m : Mem) (p n : Nat) : List UInt8 := (List.range n).map (fun i => m (p + i))

/-- `m` with the bytes `bs` written from address `p` on. -/
def store (m : Mem) (p : Nat) (bs : List UInt8) : Mem :=
  fun a => if p ≤ a then bs.getD (a - p) (m a) else m a

/-- The bytes `bs` stand in `m` from address `p` on. -/
def Holds (m : Mem) (p : Nat) (bs : List UInt8) : Prop :=
  ∀ i, i < bs.length → bs[i]? = some (m (p + i))

@[simp] theorem load_length (m : Mem) (p n : Nat) : (m.load p n).length = n := by
  simp [load]

theorem load_getElem? (m : Mem) (p n i : Nat) (h : i < n) :
    (m.load p n)[i]? = some (m (p + i)) := by
  simp [load, h]

theorem le_lt (m : Mem) (p k : Nat) : m.le p k < 256 ^ k := by
  induction k generalizing p with
  | zero => simp [le]
  | succ k ih =>
      have hb : (m p).toNat < 256 := UInt8.toNat_lt _
      have := ih (p + 1)
      rw [le, pow_succ']
      omega

/-- The last byte is the most significant one. -/
theorem le_succ (m : Mem) (p k : Nat) :
    m.le p (k + 1) = m.le p k + 256 ^ k * (m (p + k)).toNat := by
  induction k generalizing p with
  | zero => simp [le]
  | succ k ih =>
      rw [le, ih, le, pow_succ', show p + 1 + k = p + (k + 1) by omega]
      ring

theorem eq_zero_of_le_eq_zero {m : Mem} {p k : Nat} (h : m.le p k = 0) (i : Nat) (hi : i < k) :
    m (p + i) = 0 := by
  induction k generalizing p i with
  | zero => omega
  | succ k ih =>
      rw [le] at h
      cases i with
      | zero => exact UInt8.toNat_inj.mp (show (m p).toNat = 0 by omega)
      | succ i =>
          rw [show p + (i + 1) = p + 1 + i by omega]
          exact ih (by omega) i (by omega)

/-- `le` depends only on the bytes it reads. -/
theorem le_congr {m m' : Mem} (p k : Nat) (h : ∀ a, p ≤ a → a < p + k → m a = m' a) :
    m.le p k = m'.le p k := by
  induction k generalizing p with
  | zero => rfl
  | succ k ih =>
      rw [le, le, h p (Nat.le_refl p) (by omega),
        ih (p + 1) (fun a h1 h2 => h a (by omega) (by omega))]

theorem Holds.nil (m : Mem) (p : Nat) : m.Holds p [] := by
  intro i hi
  simp at hi

theorem holds_cons {m : Mem} {p : Nat} {b : UInt8} {bs : List UInt8} :
    m.Holds p (b :: bs) ↔ m p = b ∧ m.Holds (p + 1) bs := by
  constructor
  · intro h
    refine ⟨?_, fun i hi => ?_⟩
    · have := h 0 (by simp)
      simpa using this.symm
    · have := h (i + 1) (by simpa using hi)
      rwa [List.getElem?_cons_succ, show p + (i + 1) = p + 1 + i by omega] at this
  · rintro ⟨h0, h1⟩ i hi
    cases i with
    | zero => simp [h0]
    | succ i =>
        rw [List.getElem?_cons_succ, h1 i (by simpa using hi),
          show p + (i + 1) = p + 1 + i by omega]

theorem holds_append {m : Mem} {p : Nat} {as bs : List UInt8} :
    m.Holds p (as ++ bs) ↔ m.Holds p as ∧ m.Holds (p + as.length) bs := by
  induction as generalizing p with
  | nil => simp [Holds.nil]
  | cons a as ih =>
      rw [List.cons_append, holds_cons, holds_cons, ih, List.length_cons, and_assoc,
        show p + 1 + as.length = p + (as.length + 1) by omega]

/-- Reading back a little-endian number. -/
theorem le_of_holds {m : Mem} {p : Nat} {bs : List UInt8} (h : m.Holds p bs) :
    m.le p bs.length = leVal bs := by
  induction bs generalizing p with
  | nil => rfl
  | cons b bs ih =>
      obtain ⟨h0, h1⟩ := holds_cons.mp h
      rw [List.length_cons, le, ih h1, h0, leVal]

/-- A number read from `k` bytes determines them. -/
theorem holds_of_le {m : Mem} {p k v : Nat} (h : m.le p k = v) : m.Holds p (leBytes k v) := by
  induction k generalizing p v with
  | zero => exact Holds.nil m p
  | succ k ih =>
      have hb := UInt8.toNat_lt (m p)
      rw [le] at h
      refine holds_cons.mpr ⟨UInt8.toNat_inj.mp ?_, ih (by omega)⟩
      rw [UInt8.toNat_ofNat']
      omega

theorem Holds.congr {m m' : Mem} {p : Nat} {bs : List UInt8} (h : m.Holds p bs)
    (hm : ∀ a, p ≤ a → a < p + bs.length → m a = m' a) : m'.Holds p bs := by
  intro i hi
  rw [h i hi, hm (p + i) (by omega) (by omega)]

theorem store_lt (m : Mem) (p : Nat) (bs : List UInt8) (a : Nat) (h : a < p) :
    m.store p bs a = m a := by
  simp [store, show ¬ p ≤ a by omega]

theorem store_ge (m : Mem) (p : Nat) (bs : List UInt8) (a : Nat) (h : p + bs.length ≤ a) :
    m.store p bs a = m a := by
  simp [store, List.getD, List.getElem?_eq_none (show bs.length ≤ a - p by omega)]

theorem holds_store (m : Mem) (p : Nat) (bs : List UInt8) : (m.store p bs).Holds p bs := by
  intro i hi
  simp [store, List.getD, List.getElem?_eq_getElem hi]

@[simp] theorem store_nil (m : Mem) (p : Nat) : m.store p [] = m := by
  funext a
  simp [store]

/-- Two writes, the second right behind the first, are one. -/
theorem store_append (m : Mem) (p : Nat) (as bs : List UInt8) :
    (m.store p as).store (p + as.length) bs = m.store p (as ++ bs) := by
  funext a
  by_cases h1 : a < p
  · rw [store_lt _ _ _ _ (by omega), store_lt _ _ _ _ h1, store_lt _ _ _ _ h1]
  · by_cases h2 : a < p + as.length
    · have h := holds_store m p as (a - p) (by omega)
      have h' := holds_store m p (as ++ bs) (a - p) (by simp; omega)
      rw [show p + (a - p) = a by omega] at h h'
      rw [store_lt _ _ _ _ h2]
      rw [List.getElem?_append_left (by omega), h] at h'
      exact Option.some.inj h'
    · simp only [store, show p ≤ a by omega, show p + as.length ≤ a by omega, if_true,
        List.getD, List.getElem?_append_right (show as.length ≤ a - p by omega),
        List.getElem?_eq_none (show as.length ≤ a - p by omega), Option.getD_none,
        show a - (p + as.length) = a - p - as.length by omega]

/-- Writes to disjoint places can be made in either order. -/
theorem store_comm (m : Mem) (p q : Nat) (as bs : List UInt8) (h : q + bs.length ≤ p) :
    (m.store q bs).store p as = (m.store p as).store q bs := by
  funext a
  by_cases h1 : a < p
  · rw [store_lt _ _ _ _ h1]
    simp only [store, show ¬ p ≤ a by omega, if_false]
  · rw [store_ge _ q bs a (by omega)]
    simp only [store, show p ≤ a by omega, if_true, show q ≤ a by omega, List.getD,
      List.getElem?_eq_none (show bs.length ≤ a - q by omega), Option.getD_none]

/-- The bytes that stand in memory are those that are loaded. -/
theorem Holds.load_eq {m : Mem} {p : Nat} {bs : List UInt8} (h : m.Holds p bs) :
    m.load p bs.length = bs := by
  apply List.ext_getElem?
  intro i
  rcases Nat.lt_or_ge i bs.length with hi | hi
  · rw [load_getElem? m p _ i hi, h i hi]
  · rw [List.getElem?_eq_none (by rwa [load_length]), List.getElem?_eq_none hi]

/-- The string `bs` stands in memory at address `p`: it has no zero, and a zero ends it. -/
def HoldsString (m : Mem) (p : Nat) (bs : List UInt8) : Prop := m.Holds p (bs ++ [0]) ∧ 0 ∉ bs

theorem cons_nonzero {c : UInt8} (h : c ≠ 0) (s : CString) : 0 ∉ c :: s.chars := by
  rw [List.mem_cons, not_or]
  exact ⟨Ne.symm h, s.nonzero⟩

/-- The string at an address, if it ends within `n` bytes. -/
def cstring (m : Mem) : Nat → Nat → Option CString
  | _, 0 => none
  | p, n + 1 =>
      if h : m p = 0 then some ⟨[], List.not_mem_nil⟩
      else (m.cstring (p + 1) n).map (fun s => ⟨m p :: s.chars, cons_nonzero h s⟩)

theorem HoldsString.cstring_eq {m : Mem} {p n : Nat} {bs : List UInt8} (h : m.HoldsString p bs)
    (hn : bs.length < n) : m.cstring p n = some ⟨bs, h.2⟩ := by
  obtain ⟨hholds, hzero⟩ := h
  induction bs generalizing p n with
  | nil =>
      cases n with
      | zero => exact absurd hn (Nat.not_lt_zero _)
      | succ n =>
          have hp : m p = 0 := (holds_cons.mp hholds).1
          rw [cstring, dif_pos hp]
  | cons b bs ih =>
      cases n with
      | zero => exact absurd hn (Nat.not_lt_zero _)
      | succ n =>
          obtain ⟨hb, hrest⟩ := holds_cons.mp hholds
          have hne : m p ≠ 0 := fun h' => hzero (by rw [← hb, h']; exact List.mem_cons_self)
          rw [List.length_cons] at hn
          rw [cstring, dif_neg hne,
            ih (Nat.lt_of_succ_lt_succ hn) hrest (fun h' => hzero (List.mem_cons_of_mem _ h'))]
          simp only [Option.map_some, hb]

/-- What is read stands in memory. -/
theorem holdsString_of_cstring {m : Mem} {p n : Nat} {s : CString} (h : m.cstring p n = some s) :
    m.HoldsString p s.chars ∧ s.chars.length < n := by
  induction n generalizing p s with
  | zero => cases h
  | succ n ih =>
      rw [cstring] at h
      split at h
      · next hp =>
        cases h
        exact ⟨⟨holds_cons.mpr ⟨hp, Holds.nil _ _⟩, List.not_mem_nil⟩, Nat.succ_pos n⟩
      · next hp =>
        obtain ⟨t, ht, rfl⟩ := Option.map_eq_some_iff.mp h
        obtain ⟨hholds, hlt⟩ := ih ht
        exact ⟨⟨holds_cons.mpr ⟨rfl, hholds.1⟩, cons_nonzero hp t⟩, Nat.succ_lt_succ hlt⟩

/-- Bytes without a zero are the beginning of the string that begins there. -/
theorem Holds.prefix_string {m : Mem} {p : Nat} {as bs : List UInt8} (h : m.Holds p as)
    (hzero : 0 ∉ as) (hstring : m.HoldsString p bs) : as <+: bs := by
  induction as generalizing p bs with
  | nil => exact List.nil_prefix
  | cons a as ih =>
      obtain ⟨ha, has⟩ := holds_cons.mp h
      obtain ⟨hbs, hne⟩ := hstring
      cases bs with
      | nil =>
          have hp : m p = 0 := (holds_cons.mp hbs).1
          exact absurd (List.mem_cons.mpr (Or.inl (hp.symm.trans ha))) hzero
      | cons b bs =>
          obtain ⟨hb, hrest⟩ := holds_cons.mp hbs
          rw [List.cons_prefix_cons]
          exact ⟨ha.symm.trans hb, ih has (fun h' => hzero (List.mem_cons_of_mem a h'))
            ⟨hrest, fun h' => hne (List.mem_cons_of_mem b h')⟩⟩

theorem zero_not_mem_takeWhile (bs : List UInt8) :
    0 ∉ bs.takeWhile (fun b => decide (b ≠ 0)) := by
  intro hmem
  simpa using List.all_eq_true.mp List.all_takeWhile _ hmem

/-- Bytes with a zero behind them are a string up to their first zero. -/
theorem Holds.takeWhile {m : Mem} {p : Nat} {bs : List UInt8} (h : m.Holds p (bs ++ [0])) :
    m.HoldsString p (bs.takeWhile (fun b => decide (b ≠ 0))) := by
  refine ⟨?_, zero_not_mem_takeWhile bs⟩
  induction bs generalizing p with
  | nil => exact h
  | cons b bs ih =>
      obtain ⟨hb, hrest⟩ := holds_cons.mp h
      by_cases hzero : b = 0
      · rw [List.takeWhile_cons_of_neg (by simpa using hzero), List.nil_append]
        exact holds_cons.mpr ⟨hb.trans hzero, Holds.nil _ _⟩
      · rw [List.takeWhile_cons_of_pos (by simpa using hzero), List.cons_append]
        exact holds_cons.mpr ⟨hb, ih hrest⟩

/-! ## Arrays of 32-bit words -/

/-- The 32-bit word number `i`. -/
def word (m : Mem) (i : Nat) : UInt32 := UInt32.ofNat (m.le (4 * i) 4)

/-- The first `n` words. -/
def words (m : Mem) (n : Nat) : List UInt32 := (List.range n).map m.word

/-- `m` with the word number `i` written. -/
def setWord (m : Mem) (i : Nat) (w : UInt32) : Mem := m.store (4 * i) (leBytes 4 w.toNat)

/-- `realloc`: the common part of the two sizes is kept, and the rest is fresh. -/
def realloc (m : Mem) (old new : Nat) (heap : Mem) : Mem :=
  fun a => if a < old ∧ a < new then m a else heap a

@[simp] theorem words_length (m : Mem) (n : Nat) : (m.words n).length = n := by
  simp [words]

theorem words_succ (m : Mem) (n : Nat) : m.words (n + 1) = m.words n ++ [m.word n] := by
  rw [words, List.range_succ, List.map_append]
  rfl

theorem word_of_holds {m : Mem} {i : Nat} {w : UInt32} (h : m.Holds (4 * i) (leBytes 4 w.toNat)) :
    m.word i = w := by
  have hle := le_of_holds h
  have hw : w.toNat < 256 ^ 4 := w.toNat_lt
  rw [leBytes_length, leVal_leBytes, Nat.mod_eq_of_lt hw] at hle
  rw [word, hle, UInt32.ofNat_toNat]

/-- Words depend only on the bytes they are made of. -/
theorem words_congr {m m' : Mem} {n : Nat} (h : ∀ a, a < 4 * n → m a = m' a) :
    m.words n = m'.words n := by
  refine List.map_congr_left (fun i hi => ?_)
  rw [List.mem_range] at hi
  rw [word, word, le_congr (4 * i) 4 (fun a _ ha => h a (by omega))]

/-- Writing the word behind the first `n` ones appends it. -/
theorem words_setWord (m : Mem) (n : Nat) (w : UInt32) :
    (m.setWord n w).words (n + 1) = m.words n ++ [w] := by
  have hframe : (m.setWord n w).words n = m.words n :=
    words_congr (fun a ha => store_lt m (4 * n) _ a ha)
  rw [words_succ, hframe, setWord, word_of_holds (holds_store m (4 * n) _)]

/-- `realloc` keeps what lies in both allocations. -/
theorem Holds.realloc {m : Mem} {bs : List UInt8} {old new : Nat} (h : m.Holds 0 bs)
    (h1 : bs.length ≤ old) (h2 : bs.length ≤ new) (heap : Mem) :
    (m.realloc old new heap).Holds 0 bs := by
  apply h.congr
  intro a _ ha
  rw [Mem.realloc, if_pos (by omega)]

theorem words_realloc (m : Mem) {n old new : Nat} (h1 : 4 * n ≤ old) (h2 : 4 * n ≤ new)
    (heap : Mem) : (m.realloc old new heap).words n = m.words n := by
  refine words_congr (fun a ha => ?_)
  rw [realloc, if_pos (by omega)]

/-- An array of words is read back from its bytes. -/
theorem words_of_holds {m : Mem} {ws : List UInt32} (h : m.Holds 0 (leWords ws)) :
    m.words ws.length = ws := by
  induction ws using List.reverseRecOn with
  | nil => rfl
  | append_singleton ws w ih =>
      have hsplit : leWords (ws ++ [w]) = leWords ws ++ leBytes 4 w.toNat := by
        simp [leWords]
      rw [hsplit, holds_append, leWords_length, Nat.zero_add] at h
      rw [List.length_append, List.length_singleton, words_succ, ih h.1, word_of_holds h.2]

end Mem

/-! ## Allocation -/

/-- The memory that the next allocations return, and the number of bytes behind the end of every
object that can be overwritten without harm. The language promises none of these: a result for
`slack = 0` is one for the objects themselves. -/
structure Heap where
  mem : Nat → Mem
  slack : Nat

namespace Heap

instance : CoeFun Heap (fun _ => Nat → Mem) := ⟨Heap.mem⟩

/-- The heap after `n` allocations. -/
def drop (h : Heap) (n : Nat) : Heap := ⟨fun k => h (k + n), h.slack⟩

/-- A heap that returns zeroed memory. -/
def zeros (slack : Nat) : Heap := ⟨fun _ _ => 0, slack⟩

@[simp] theorem drop_slack (h : Heap) (n : Nat) : (h.drop n).slack = h.slack := rfl

end Heap

end CSearch
