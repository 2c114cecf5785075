import Mathlib.Tactic
import Mathlib.Data.List.TakeDrop

set_option autoImplicit false

/-! # Files and readers

`FStream` is what is used of `std::fstream`, `CFile` what is used of the `FILE` of C: the bytes
not read yet, the bytes written, and the state bits.

A *reader* is a step function on a state that reports whether it has read something; where it does
something that has no defined result, it is `none`. `Yields step obs s l` says what calling it again
and again from `s` gives: it succeeds once for every entry of `l`, showing the entry through `obs`,
and then fails. `Fills` is the same for a reader that is called with an argument it is to leave the
entry in.
-/

namespace CSearch

/-! ## `std::fstream` -/

/-- A `std::fstream`. -/
structure FStream where
  rest : List UInt8
  eofbit : Bool := false
  failbit : Bool := false
  written : List UInt8 := []

namespace FStream

/-- A file opened for reading. -/
def openIn (bytes : List UInt8) : FStream := { rest := bytes }

/-- A new file opened for writing. -/
def create : FStream := { rest := [] }

/-- `eof()`. -/
def eof (s : FStream) : Bool := s.eofbit

/-- `read(p, n)`: the bytes transferred to `p`. A stream that is not good transfers nothing; a
read past the end transfers what is left and sets `eofbit` and `failbit`. -/
def read (s : FStream) (n : Nat) : List UInt8 × FStream :=
  if s.eofbit || s.failbit then ([], { s with failbit := true })
  else if n ≤ s.rest.length then (s.rest.take n, { s with rest := s.rest.drop n })
  else (s.rest, { s with rest := [], eofbit := true, failbit := true })

/-- `write(p, n)`. -/
def write (s : FStream) (bs : List UInt8) : FStream := { s with written := s.written ++ bs }

/-- Nothing has gone wrong so far. -/
def Good (s : FStream) : Prop := s.eofbit = false ∧ s.failbit = false

theorem openIn_good (bytes : List UInt8) : (openIn bytes).Good := ⟨rfl, rfl⟩

@[simp] theorem openIn_rest (bytes : List UInt8) : (openIn bytes).rest = bytes := rfl

@[simp] theorem write_written (s : FStream) (bs : List UInt8) :
    (s.write bs).written = s.written ++ bs := rfl

theorem Good.eof_eq {s : FStream} (h : s.Good) : s.eof = false := h.1

theorem read_of_le {s : FStream} {n : Nat} (hg : s.Good) (h : n ≤ s.rest.length) :
    s.read n = (s.rest.take n, { s with rest := s.rest.drop n }) := by
  rw [read, hg.1, hg.2]
  simp [h]

theorem read_of_lt {s : FStream} {n : Nat} (hg : s.Good) (h : s.rest.length < n) :
    s.read n = (s.rest, { s with rest := [], eofbit := true, failbit := true }) := by
  rw [read, hg.1, hg.2]
  simp [Nat.not_le.mpr h]

theorem read_of_eof {s : FStream} {n : Nat} (h : s.eofbit = true) :
    s.read n = ([], { s with failbit := true }) := by
  rw [read, h]
  simp

/-- Reading what stands in front. -/
theorem read_append {s : FStream} {as bs : List UInt8} (hg : s.Good) (h : s.rest = as ++ bs) :
    s.read as.length = (as, { s with rest := bs }) := by
  rw [read_of_le hg (by rw [h]; simp), h, List.take_left, List.drop_left]

theorem Good.of_rest {s : FStream} (h : s.Good) (bs : List UInt8) :
    Good { s with rest := bs } := h

/-- A good stream after a read: either all bytes were there, or the stream is at its end. -/
theorem read_cases {s : FStream} (hg : s.Good) (n : Nat) :
    (n ≤ s.rest.length ∧ (s.read n).2.Good ∧ (s.read n).1.length = n
        ∧ (s.read n).2.rest.length = s.rest.length - n)
      ∨ (s.rest.length < n ∧ (s.read n).2.eofbit = true
        ∧ (s.read n).1.length = s.rest.length) := by
  rcases Nat.lt_or_ge s.rest.length n with h | h
  · rw [read_of_lt hg h]
    exact Or.inr ⟨h, rfl, rfl⟩
  · rw [read_of_le hg h]
    exact Or.inl ⟨h, hg, by simpa using h, by simp⟩

end FStream

/-! ## `FILE` -/

/-- A `FILE`. -/
structure CFile where
  rest : List UInt8
  written : List UInt8 := []

namespace CFile

/-- `fread(p, size, 1, in)`: the bytes transferred and the number of complete items. -/
def fread (s : CFile) (size : Nat) : List UInt8 × Nat × CFile :=
  if size ≤ s.rest.length then (s.rest.take size, 1, { s with rest := s.rest.drop size })
  else (s.rest, 0, { s with rest := [] })

/-- `fwrite(p, size, 1, out)`. -/
def fwrite (s : CFile) (bs : List UInt8) : CFile := { s with written := s.written ++ bs }

/-- Reading what stands in front. -/
theorem fread_append {s : CFile} {as bs : List UInt8} (h : s.rest = as ++ bs) :
    s.fread as.length = (as, 1, { s with rest := bs }) := by
  rw [fread, h, if_pos (by simp), List.take_left, List.drop_left]

theorem fread_nil {s : CFile} {n : Nat} (h : s.rest = []) (hn : 0 < n) :
    s.fread n = ([], 0, s) := by
  obtain ⟨rest, written⟩ := s
  subst h
  rw [fread, if_neg (by simp; omega)]

end CFile

/-! ## Readers -/

section

variable {σ τ ω : Type}

/-- Called again and again from `s`, the reader `step` succeeds once for every entry of the list,
showing it through `obs`, and then fails. -/
def Yields (step : σ → Option (Bool × σ)) (obs : σ → ω) : σ → List ω → Prop
  | s, [] => ∃ s', step s = some (false, s')
  | s, x :: xs => ∃ s', step s = some (true, s') ∧ obs s' = x ∧ Yields step obs s' xs

/-- What a reader yields is determined. -/
theorem Yields.unique {step : σ → Option (Bool × σ)} {obs : σ → ω} {s : σ} {l l' : List ω}
    (h : Yields step obs s l) (h' : Yields step obs s l') : l = l' := by
  induction l generalizing s l' with
  | nil =>
      obtain ⟨s₁, hs₁⟩ := h
      cases l' with
      | nil => rfl
      | cons y ys =>
          obtain ⟨s₂, hs₂, -⟩ := h'
          rw [hs₁] at hs₂
          exact absurd hs₂ (by simp)
  | cons x xs ih =>
      obtain ⟨s₁, hs₁, hx, hxs⟩ := h
      cases l' with
      | nil =>
          obtain ⟨s₂, hs₂⟩ := h'
          rw [hs₁] at hs₂
          exact absurd hs₂ (by simp)
      | cons y ys =>
          obtain ⟨s₂, hs₂, hy, hys⟩ := h'
          rw [hs₁, Option.some.injEq, Prod.mk.injEq] at hs₂
          obtain ⟨-, rfl⟩ := hs₂
          rw [← hx, ← hy, ih hxs hys]

/-- What holds of everything a reader can show holds of what it yields. -/
theorem Yields.forall_mem {step : σ → Option (Bool × σ)} {obs : σ → ω} {P : ω → Prop}
    (hP : ∀ s s', step s = some (true, s') → P (obs s')) {s : σ} {l : List ω}
    (h : Yields step obs s l) : ∀ x ∈ l, P x := by
  induction l generalizing s with
  | nil => simp
  | cons y ys ih =>
      obtain ⟨s', hs', hy, hys⟩ := h
      rw [List.forall_mem_cons]
      exact ⟨hy ▸ hP s s' hs', ih hys⟩

/-- Observations that agree after every successful step can be exchanged. -/
theorem yields_congr {step : σ → Option (Bool × σ)} {obs obs' : σ → ω}
    (h : ∀ s s', step s = some (true, s') → obs s' = obs' s') (s : σ) (l : List ω) :
    Yields step obs s l ↔ Yields step obs' s l := by
  induction l generalizing s with
  | nil => rfl
  | cons x xs ih =>
      refine exists_congr (fun s' => and_congr_right (fun hs' => ?_))
      rw [h s s' hs', ih]

/-- Readers that run in step through a projection of the states yield the same. -/
theorem yields_map {step : σ → Option (Bool × σ)} {step' : τ → Option (Bool × τ)} (obs : τ → ω)
    (π : σ → τ) (h : ∀ s, (step s).map (Prod.map id π) = step' (π s)) (s : σ) (l : List ω) :
    Yields step (fun s => obs (π s)) s l ↔ Yields step' obs (π s) l := by
  induction l generalizing s with
  | nil =>
      rw [Yields, Yields, ← h]
      cases hs : step s with
      | none => simp
      | some r =>
          obtain ⟨b, s'⟩ := r
          simp
  | cons x xs ih =>
      rw [Yields, Yields, ← h]
      cases hs : step s with
      | none => simp
      | some r =>
          obtain ⟨b, s'⟩ := r
          simp [← ih]

/-- Called again and again from `r`, each time with the next one of `args`, the reader `read`
succeeds once for every entry of the list, leaving it in the argument and showing it through `obs`,
and then fails. -/
def Fills (read : σ → ω → Option (Bool × ω × σ)) (obs : σ → ω) : σ → (Nat → ω) → List ω → Prop
  | r, args, [] => ∃ a r', read r (args 0) = some (false, a, r')
  | r, args, x :: xs =>
      ∃ r', read r (args 0) = some (true, x, r') ∧ obs r' = x
        ∧ Fills read obs r' (fun n => args (n + 1)) xs

/-- Readers that run in step through a projection of the states fill their arguments alike. -/
theorem fills_map {read : σ → ω → Option (Bool × ω × σ)} {read' : τ → ω → Option (Bool × ω × τ)}
    (obs : τ → ω) (π : σ → τ)
    (h : ∀ r a, (read r a).map (fun p => (p.1, p.2.1, π p.2.2)) = read' (π r) a)
    (r : σ) (args : Nat → ω) (l : List ω) :
    Fills read (fun r => obs (π r)) r args l ↔ Fills read' obs (π r) args l := by
  induction l generalizing r args with
  | nil =>
      rw [Fills, Fills, ← h]
      cases hs : read r (args 0) with
      | none => simp
      | some p =>
          obtain ⟨b, a, r'⟩ := p
          simp
  | cons x xs ih =>
      rw [Fills, Fills, ← h]
      cases hs : read r (args 0) with
      | none => simp
      | some p =>
          obtain ⟨b, a, r'⟩ := p
          simp only [Option.some.injEq, Prod.mk.injEq, Option.map_some]
          constructor
          · rintro ⟨r₁, ⟨hb, ha, rfl⟩, hobs, hxs⟩
            exact ⟨π r', ⟨hb, ha, rfl⟩, hobs, (ih r' _).mp hxs⟩
          · rintro ⟨t, ⟨hb, ha, rfl⟩, hobs, hxs⟩
            exact ⟨r', ⟨hb, ha, rfl⟩, hobs, (ih r' _).mpr hxs⟩

end

end CSearch
