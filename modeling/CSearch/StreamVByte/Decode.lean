import CSearch.Basic.Simd
import CSearch.StreamVByte.Tables
import CSearch.StreamVByte.Encode

set_option autoImplicit false

/-! # The decoders of `streamvbytedelta.c`

`streamvbyte_delta_decode` takes 32 values at a time through vector registers and leaves the
rest, at most 31 values, to a scalar loop. Both read the same format: whatever is in memory, they
return the running sums of the values `rawsAt` and stop at `dataEnd`
(`streamvbyteDeltaDecode_eq`).

Input pointers are offsets into the input memory; a decoder returns the values it has stored to
`out`, in order, and the pointer behind the data.
-/

namespace CSearch.StreamVByte

open M128i

/-! ## The scalar decoder of the source -/

/-- `_decode_data`: one value and the pointer behind it. -/
def decodeData (m : Mem) (dataPtr : Nat) (code : UInt32) : UInt32 × Nat :=
  if code = 0 then -- 1 byte
    ((m dataPtr).toUInt32, dataPtr + 1)
  else if code = 1 then -- 2 bytes
    (UInt32.ofNat (m.le dataPtr 2), dataPtr + 2)
  else if code = 2 then -- 3 bytes
    (UInt32.ofNat (m.le dataPtr 2) ||| ((m (dataPtr + 2)).toUInt32 <<< 16), dataPtr + 3)
  else -- 4 bytes
    (UInt32.ofNat (m.le dataPtr 4), dataPtr + 4)

/-- The variables of the loop of `svb_decode_scalar_d1_init`. -/
structure DecState where
  keyPtr : Nat
  dataPtr : Nat
  shift : UInt32
  key : UInt32
  prev : UInt32

/-- The head of the loop body: an exhausted key is replaced by the next one. -/
def DecState.fetchKey (m : Mem) (s : DecState) : DecState :=
  if s.shift = 8 then { s with shift := 0, key := (m s.keyPtr).toUInt32, keyPtr := s.keyPtr + 1 }
  else s

/-- The rest of the loop body; the value stored is the new `prev`. -/
def DecState.pull (m : Mem) (s : DecState) : DecState :=
  let r := decodeData m s.dataPtr ((s.key >>> s.shift) &&& 3)
  { s with dataPtr := r.2, prev := r.1 + s.prev, shift := s.shift + 2 }

/-- The loop of `svb_decode_scalar_d1_init` for the last `n` values. -/
def decodeScalarLoop (m : Mem) : Nat → DecState → List UInt32 × Nat
  | 0, s => ([], s.dataPtr)
  | n + 1, s =>
      let s' := (s.fetchKey m).pull m
      let r := decodeScalarLoop m n s'
      (s'.prev :: r.1, r.2)

/-- `svb_decode_scalar_d1_init`. -/
def svbDecodeScalarD1Init (m : Mem) (keyPtr dataPtr count : Nat) (prev : UInt32) :
    List UInt32 × Nat :=
  if count = 0 then ([], dataPtr) -- no reads or writes if no data
  else decodeScalarLoop m count ⟨keyPtr + 1, dataPtr, 0, (m keyPtr).toUInt32, prev⟩

/-! ## The vector decoder of the source -/

/-- `_decode_avx`: the four values of one key byte, and the pointer behind their data. -/
def decodeAvx (m : Mem) (key : Nat) (dataPtr : Nat) : M128i × Nat :=
  let len := lengthTable.getD key 0
  let data := mmLoaduSi128 m dataPtr
  let shuf : M128i := fun b => UInt8.ofNat ((shuffleTable.getD key []).getD b 0)
  (mmShuffleEpi8 data shuf, dataPtr + len)

/-- The control that broadcasts the top 32-bit lane. -/
def broadcastLastXMM : Nat := 0xFF

/-- `_write_avx_d1`: prefix sums of four 32-bit values. -/
def writeAvxD1 (vec prev : M128i) : List UInt32 × M128i :=
  let add := mmSlliSi128 vec 4                       -- [- A B C]
  let prev := mmShuffleEpi32 prev broadcastLastXMM   -- [P P P P]
  let vec := mmAddEpi32 vec add                      -- [A AB BC CD]
  let add := mmSlliSi128 vec 8                       -- [- - A AB]
  let vec := mmAddEpi32 vec prev                     -- [PA PAB PBC PCD]
  let vec := mmAddEpi32 vec add                      -- [PA PAB PABC PABCD]
  (mmStoreuSi128 vec, vec)

/-- `High16To32`: the control that widens the upper four 16-bit lanes. -/
def high16To32 : M128i :=
  fun b => UInt8.ofNat ([8, 9, 255, 255, 10, 11, 255, 255, 12, 13, 255, 255, 14, 15, 255, 255].getD b 0)

/-- `_write_16bit_avx_d1`: prefix sums of eight values that are small enough for 16-bit sums. -/
def write16bitAvxD1 (vec prev : M128i) : List UInt32 × M128i :=
  let add := mmSlliSi128 vec 2                       -- [- A B C D E F G]
  let prev := mmShuffleEpi32 prev broadcastLastXMM   -- [P P P P] (32-bit)
  let vec := mmAddEpi32 vec add                      -- [A AB BC CD DE EF FG GH]
  let add := mmSlliSi128 vec 4                       -- [- - A AB BC CD DE EF]
  let vec := mmAddEpi32 vec add                      -- [A AB ABC ABCD BCDE CDEF DEFG EFGH]
  let v1 := mmCvtepu16Epi32 vec                      -- [A AB ABC ABCD] (32-bit)
  let v1 := mmAddEpi32 v1 prev                       -- [PA PAB PABC PABCD] (32-bit)
  let v2 := mmShuffleEpi8 vec high16To32             -- [BCDE CDEF DEFG EFGH] (32-bit)
  let v2 := mmAddEpi32 v1 v2                         -- [PABCDE .. PABCDEFGH] (32-bit)
  (mmStoreuSi128 v1 ++ mmStoreuSi128 v2, v2)

/-- The values stored, the pointer behind their data, and the register `Prev` for the next
values. -/
structure VecStep where
  out : List UInt32
  dataPtr : Nat
  prev : M128i

/-- Two steps, one after the other. -/
def VecStep.andThen (r : VecStep) (f : Nat → M128i → VecStep) : VecStep :=
  let r' := f r.dataPtr r.prev
  ⟨r.out ++ r'.out, r'.dataPtr, r'.prev⟩

/-- `Data = _decode_avx(key, &dataPtr); Prev = _write_avx_d1(out, Data, Prev);` -/
def avxQuad (m : Mem) (key : Nat) (dataPtr : Nat) (prev : M128i) : VecStep :=
  let d := decodeAvx m key dataPtr
  let w := writeAvxD1 d.1 prev
  ⟨w.1, d.2, w.2⟩

/-- The two lower bytes of `keys`. -/
def avxPair (m : Mem) (keys : UInt64) (dataPtr : Nat) (prev : M128i) : VecStep :=
  (avxQuad m (keys &&& 0x00FF).toNat dataPtr prev).andThen
    (avxQuad m ((keys &&& 0xFF00) >>> 8).toNat)

/-- Eight values from eight data bytes, the register `data` holding them. -/
def avxOct (data : M128i) (dataPtr : Nat) (prev : M128i) : VecStep :=
  let w := write16bitAvxD1 (mmCvtepu8Epi16 data) prev
  ⟨w.1, dataPtr + 8, w.2⟩

/-- The body of the loop of `svb_decode_avx_d1_init`: 32 values. The last eight data bytes are
loaded with `load`, which differs between the loop and the code behind it. -/
def avxBlock (m : Mem) (load : Mem → Nat → M128i) (keys : UInt64) (dataPtr : Nat) (prev : M128i) :
    VecStep :=
  if keys = 0 then -- 32 1-byte ints in a row
    (((avxOct (mmLddquSi128 m dataPtr) dataPtr prev).andThen
      (fun p => avxOct (mmLddquSi128 m p) p)).andThen
      (fun p => avxOct (mmLddquSi128 m p) p)).andThen
      (fun p => avxOct (load m p) p)
  else
    (((avxPair m keys dataPtr prev).andThen
      (avxPair m (keys >>> 16))).andThen
      (avxPair m (keys >>> 16 >>> 16))).andThen
      (avxPair m (keys >>> 16 >>> 16 >>> 16))

/-- The 64-bit word at address `p`. -/
def load64 (m : Mem) (p : Nat) : UInt64 := UInt64.ofNat (m.le p 8)

/-- The loop of `svb_decode_avx_d1_init` and the last round behind it. The source counts `Offset`
up to `0`; here `rem` is `-Offset` and `j` the number of key words already fetched. -/
def avxLoop (m : Mem) (keyPtr : Nat) : (rem j : Nat) → (nextkeys : UInt64) → Nat → M128i → VecStep
  | 0, _, nextkeys, dataPtr, prev => avxBlock m mmLoadlEpi64 nextkeys dataPtr prev
  | rem + 1, j, nextkeys, dataPtr, prev =>
      (avxBlock m mmLddquSi128 nextkeys dataPtr prev).andThen
        (avxLoop m keyPtr rem (j + 1) (load64 m (keyPtr + 8 * (j + 1))))

/-- `svb_decode_avx_d1_init`. -/
def svbDecodeAvxD1Init (m : Mem) (keyPtr dataPtr count : Nat) (prev : UInt32) :
    List UInt32 × Nat :=
  let keybytes := count / 4 -- number of key bytes
  let consumedkeys := keybytes - (keybytes &&& 7)
  if keybytes ≥ 8 then
    let r := avxLoop m keyPtr (keybytes / 8 - 1) 0 (load64 m keyPtr) dataPtr (mmSet1Epi32 prev)
    let t := svbDecodeScalarD1Init m (keyPtr + consumedkeys) r.dataPtr (count &&& 31)
      (r.out.getLastD prev)
    (r.out ++ t.1, t.2)
  else
    svbDecodeScalarD1Init m (keyPtr + consumedkeys) dataPtr (count &&& 31) prev

/-- `streamvbyte_delta_decode`: the values and the number of bytes read. -/
def streamvbyteDeltaDecode (m : Mem) (count : UInt32) (prev : UInt32) : List UInt32 × Nat :=
  svbDecodeAvxD1Init m 0 (keyLen count) count.toNat prev

/-! ## The scalar decoder reads the format -/

/-- `_decode_data` reads `code + 1` little-endian bytes. -/
theorem decodeData_eq (m : Mem) (dp : Nat) (code : UInt32) (h : code.toNat < 4) :
    decodeData m dp code = (UInt32.ofNat (m.le dp (code.toNat + 1)), dp + code.toNat + 1) := by
  have hcode : code = 0 ∨ code = 1 ∨ code = 2 ∨ code = 3 := by
    simp only [← UInt32.toNat_inj]
    show code.toNat = 0 ∨ code.toNat = 1 ∨ code.toNat = 2 ∨ code.toNat = 3
    omega
  -- one, two and four bytes are one load each; three are two loads and a shift
  rcases hcode with rfl | rfl | rfl | rfl
  · refine Prod.ext (UInt32.toNat_inj.mp ?_) rfl
    have hb := UInt8.toNat_lt (m dp)
    show (m dp).toUInt32.toNat = (UInt32.ofNat ((m dp).toNat + 256 * 0)).toNat
    rw [UInt8.toNat_toUInt32, UInt32.toNat_ofNat', Nat.mod_eq_of_lt (by omega)]
    omega
  · rfl
  · refine Prod.ext (UInt32.toNat_inj.mp ?_) rfl
    have hb := UInt8.toNat_lt (m (dp + 2))
    have hlt := m.le_lt dp 2
    have h16 : (16 : UInt32).toNat % 32 = 16 := rfl
    show (UInt32.ofNat (m.le dp 2) ||| ((m (dp + 2)).toUInt32 <<< 16)).toNat
      = (UInt32.ofNat (m.le dp (2 + 1))).toNat
    rw [Mem.le_succ m dp 2, UInt32.toNat_or, UInt32.toNat_shiftLeft, UInt32.toNat_ofNat',
      UInt32.toNat_ofNat', UInt8.toNat_toUInt32, h16, Nat.shiftLeft_eq,
      Nat.mod_eq_of_lt (a := m.le dp 2) (by omega), Nat.mod_eq_of_lt (by omega),
      Nat.mod_eq_of_lt (by omega), Nat.or_comm, Nat.mul_comm,
      ← Nat.two_pow_add_eq_or_of_lt (by omega)]
    omega
  · rfl

/-- The two bits of the code of value `i` in its key byte. -/
theorem key_shift_and (m : Mem) (kp i : Nat) (key shift : UInt32)
    (hkey : key = (m (kp + i / 4)).toUInt32) (hs : shift.toNat = 2 * (i % 4)) :
    ((key >>> shift) &&& 3).toNat = codeAt m kp i := by
  have h3 : (3 : UInt32).toNat = 2 ^ 2 - 1 := rfl
  have hpow : (2 : Nat) ^ (2 * (i % 4)) = 4 ^ (i % 4) := by rw [pow_mul]; norm_num
  rw [UInt32.toNat_and, UInt32.toNat_shiftRight, hs, h3, Nat.and_two_pow_sub_one_eq_mod,
    Nat.mod_eq_of_lt (show 2 * (i % 4) < 32 by omega), Nat.shiftRight_eq_div_pow, hpow, hkey,
    UInt8.toNat_toUInt32]
  rfl

/-- The scalar loop before value `i`: its key is at hand, or it is the first of the next key. -/
structure DecInv (m : Mem) (kp i : Nat) (s : DecState) : Prop where
  shift : s.shift.toNat = 2 * (i % 4) ∧ s.key = (m (kp + i / 4)).toUInt32
      ∧ s.keyPtr = kp + i / 4 + 1
    ∨ s.shift.toNat = 8 ∧ i % 4 = 0 ∧ s.keyPtr = kp + i / 4

/-- After the head of the loop body the key is at hand. -/
theorem DecInv.fetchKey {m : Mem} {kp i : Nat} {s : DecState} (h : DecInv m kp i s) :
    (s.fetchKey m).shift.toNat = 2 * (i % 4) ∧ (s.fetchKey m).key = (m (kp + i / 4)).toUInt32
      ∧ (s.fetchKey m).keyPtr = kp + i / 4 + 1 ∧ (s.fetchKey m).dataPtr = s.dataPtr
      ∧ (s.fetchKey m).prev = s.prev := by
  have h8 : (8 : UInt32).toNat = 8 := rfl
  unfold DecState.fetchKey
  rcases h.shift with ⟨h1, h2, h3⟩ | ⟨h1, h2, h3⟩
  · rw [if_neg (by rw [← UInt32.toNat_inj, h1, h8]; omega)]
    exact ⟨h1, h2, h3, rfl, rfl⟩
  · rw [if_pos (by rw [← UInt32.toNat_inj, h1, h8])]
    refine ⟨?_, ?_, ?_, rfl, rfl⟩
    · show (0 : UInt32).toNat = 2 * (i % 4)
      rw [h2]; rfl
    · rw [h3]
    · show s.keyPtr + 1 = kp + i / 4 + 1
      rw [h3]

/-- One round of the scalar loop. -/
theorem DecInv.pull {m : Mem} {kp i : Nat} {s : DecState} (h : DecInv m kp i s) :
    DecInv m kp (i + 1) ((s.fetchKey m).pull m)
      ∧ ((s.fetchKey m).pull m).dataPtr = s.dataPtr + codeAt m kp i + 1
      ∧ ((s.fetchKey m).pull m).prev = UInt32.ofNat (m.le s.dataPtr (codeAt m kp i + 1)) + s.prev := by
  obtain ⟨hs, hk, hp, hd, hprev⟩ := h.fetchKey
  set s1 := s.fetchKey m with hs1
  have hcode := key_shift_and m kp i s1.key s1.shift hk hs
  have hdec := decodeData_eq m s.dataPtr ((s1.key >>> s1.shift) &&& 3)
    (by rw [hcode]; exact codeAt_lt m kp i)
  rw [hcode] at hdec
  unfold DecState.pull
  simp only [hd, hdec, hprev]
  refine ⟨⟨?_⟩, trivial, trivial⟩
  show (s1.shift + 2).toNat = 2 * ((i + 1) % 4) ∧ s1.key = (m (kp + (i + 1) / 4)).toUInt32
      ∧ s1.keyPtr = kp + (i + 1) / 4 + 1
    ∨ (s1.shift + 2).toNat = 8 ∧ (i + 1) % 4 = 0 ∧ s1.keyPtr = kp + (i + 1) / 4
  have h2 : (2 : UInt32).toNat = 2 := rfl
  have hsum : (s1.shift + 2).toNat = 2 * (i % 4) + 2 := by
    rw [UInt32.toNat_add, hs, h2]
    omega
  rw [hsum]
  -- the fourth code uses up the key byte
  by_cases hi : i % 4 = 3
  · exact Or.inr ⟨by omega, by omega, by rw [hp]; omega⟩
  · refine Or.inl ⟨by omega, ?_, by rw [hp]; omega⟩
    rw [hk, show (i + 1) / 4 = i / 4 by omega]

theorem decodeScalarLoop_eq {m : Mem} {kp : Nat} (n i : Nat) (s : DecState)
    (h : DecInv m kp i s) :
    decodeScalarLoop m n s
      = (undeltas s.prev (rawsAt m kp i s.dataPtr n), dataEnd m kp i s.dataPtr n) := by
  induction n generalizing i s with
  | zero => rfl
  | succ n ih =>
      obtain ⟨h1, h2, h3⟩ := h.pull
      rw [decodeScalarLoop]
      simp only [ih (i + 1) _ h1, h2, h3, rawsAt, dataEnd, undeltas]

/-- **The scalar decoder reads the format.** -/
theorem svbDecodeScalarD1Init_eq (m : Mem) (kp dp n : Nat) (prev : UInt32) :
    svbDecodeScalarD1Init m kp dp n prev
      = (undeltas prev (rawsAt m kp 0 dp n), dataEnd m kp 0 dp n) := by
  unfold svbDecodeScalarD1Init
  by_cases h : n = 0
  · rw [if_pos h, h]; rfl
  · rw [if_neg h]
    exact decodeScalarLoop_eq n 0 _ ⟨Or.inl ⟨rfl, rfl, rfl⟩⟩

/-! ## The vector decoder reads the format

A vector step that stands for the `n` values from value `i` on: `Decodes` says that it stores
their running sums, moves `dataPtr` behind their data and keeps the last sum in the top lane of
`Prev`. Steps of this kind can be put one after the other (`Decodes.andThen`), so it is enough
to look at the two kinds of steps the decoder is made of: four values from one key byte, and
eight values whose two key bytes are zero. -/

/-- `r` stands for the `n` values from value `i` on. -/
structure Decodes (m : Mem) (kp i dp n : Nat) (prev : UInt32) (r : VecStep) : Prop where
  out : r.out = undeltas prev (rawsAt m kp i dp n)
  dataPtr : r.dataPtr = dataEnd m kp i dp n
  prev : r.prev.lane32 3 = r.out.getLastD prev

theorem Decodes.andThen {m : Mem} {kp i i' dp n k : Nat} {prev : UInt32} {r : VecStep}
    {f : Nat → M128i → VecStep} (h : Decodes m kp i dp n prev r) (hi : i' = i + n)
    (hf : Decodes m kp i' r.dataPtr k (r.prev.lane32 3) (f r.dataPtr r.prev)) :
    Decodes m kp i dp (n + k) prev (r.andThen f) := by
  subst hi
  have hlast : ∀ (as bs : List UInt32) (x : UInt32),
      (as ++ bs).getLastD x = bs.getLastD (as.getLastD x) := by
    intro as bs x
    induction as generalizing x with
    | nil => rfl
    | cons a as ih => rw [List.cons_append, List.getLastD_cons, ih, List.getLastD_cons]
  refine ⟨?_, ?_, ?_⟩
  · show r.out ++ (f r.dataPtr r.prev).out = _
    rw [hf.out, h.prev, rawsAt_add, undeltas_append, ← h.out, h.dataPtr]
  · show (f r.dataPtr r.prev).dataPtr = _
    rw [hf.dataPtr, dataEnd_add, ← h.dataPtr]
  · show (f r.dataPtr r.prev).prev.lane32 3 = (r.out ++ (f r.dataPtr r.prev).out).getLastD prev
    rw [hf.prev, hlast, h.prev]

/-! ### Four values from one key byte -/

/-- `_write_avx_d1` computes running sums. -/
theorem writeAvxD1_eq (vec prev : M128i) :
    (writeAvxD1 vec prev).1
        = undeltas (prev.lane32 3) [vec.lane32 0, vec.lane32 1, vec.lane32 2, vec.lane32 3]
      ∧ (writeAvxD1 vec prev).2.lane32 3 = (writeAvxD1 vec prev).1.getLastD (prev.lane32 3) := by
  refine ⟨?_, by simp [writeAvxD1, mmStoreuSi128]⟩
  simp only [writeAvxD1, mmStoreuSi128, broadcastLastXMM, lane32_add, lane32_slli4, lane32_slli8,
    lane32_broadcast, undeltas, List.cons.injEq, and_true]
  refine ⟨?_, ?_, ?_, ?_⟩
  · show vec.lane32 0 + 0 + prev.lane32 3 + 0 = vec.lane32 0 + prev.lane32 3
    abel
  · show vec.lane32 1 + vec.lane32 0 + prev.lane32 3 + 0 = _
    abel
  · show vec.lane32 2 + vec.lane32 1 + prev.lane32 3 + (vec.lane32 0 + 0) = _
    abel
  · show vec.lane32 3 + vec.lane32 2 + prev.lane32 3 + (vec.lane32 1 + vec.lane32 0) = _
    abel

/-- The control bytes for lane `t`. -/
theorem shuffle_byte (m : Mem) (key dp : Nat) (hkey : key < 256) (t : Fin 4) (b : Nat)
    (hb : b < 4) :
    (decodeAvx m key dp).1 ⟨4 * t + b, by omega⟩
      = if b ≤ laneCode key t then m (dp + laneStart key t + b) else 0 := by
  have hrow : shuffleTable.getD key [] = (List.range 16).map (shuffleEntry key) := by
    rw [shuffleTable_eq, List.getD, List.getElem?_map, List.getElem?_range hkey]
    rfl
  have hctl : ((List.range 16).map (shuffleEntry key)).getD (4 * t.val + b) 0
      = shuffleEntry key (4 * t + b) := by
    rw [List.getD, List.getElem?_map, List.getElem?_range (by omega)]
    rfl
  -- a byte the value does not have gets the control byte 255, which gives zero
  have hentry : shuffleEntry key (4 * t + b)
      = if b ≤ laneCode key t then laneStart key t + b else 255 := by
    rw [shuffleEntry, show (4 * t.val + b) % 4 = b by omega, show (4 * t.val + b) / 4 = t by omega]
  have hstart := laneStart_le key t
  have ht := t.isLt
  simp only [decodeAvx, mmShuffleEpi8, mmLoaduSi128, hrow, hctl, hentry]
  by_cases hc : b ≤ laneCode key t
  · have hsmall : (UInt8.ofNat (laneStart key t + b)).toNat = laneStart key t + b := by
      rw [UInt8.toNat_ofNat', Nat.mod_eq_of_lt (by omega)]
    simp only [if_pos hc, hsmall]
    rw [if_neg (by omega), Nat.mod_eq_of_lt (by omega), Nat.add_assoc]
  · simp only [if_neg hc]
    rfl

/-- `_decode_avx` puts the four values of the key byte into the four lanes. -/
theorem lane32_decodeAvx (m : Mem) (key dp : Nat) (hkey : key < 256) (t : Fin 4) :
    (decodeAvx m key dp).1.lane32 t
      = UInt32.ofNat (m.le (dp + laneStart key t) (laneCode key t + 1)) := by
  have h0 := shuffle_byte m key dp hkey t 0 (by omega)
  have h1 := shuffle_byte m key dp hkey t 1 (by omega)
  have h2 := shuffle_byte m key dp hkey t 2 (by omega)
  have h3 := shuffle_byte m key dp hkey t 3 (by omega)
  have hlane : (decodeAvx m key dp).1.lane32 t
      = UInt32.ofNat (((decodeAvx m key dp).1 ⟨4 * t + 0, by omega⟩).toNat
          + 256 * ((decodeAvx m key dp).1 ⟨4 * t + 1, by omega⟩).toNat
        + 65536 * (((decodeAvx m key dp).1 ⟨4 * t + 2, by omega⟩).toNat
          + 256 * ((decodeAvx m key dp).1 ⟨4 * t + 3, by omega⟩).toNat)) := by
    fin_cases t <;> rfl
  rw [hlane, h0, h1, h2, h3]
  have hc := laneCode_lt key t
  have hcases : laneCode key t = 0 ∨ laneCode key t = 1 ∨ laneCode key t = 2
      ∨ laneCode key t = 3 := by omega
  have hz : (0 : UInt8).toNat = 0 := rfl
  congr 1
  rcases hcases with hc | hc | hc | hc <;> rw [hc] <;> simp [Mem.le, hz, Nat.add_assoc] <;> omega

theorem laneCode_eq_codeAt (m : Mem) (kp j t : Nat) (ht : t < 4) :
    laneCode (m (kp + j)).toNat t = codeAt m kp (4 * j + t) := by
  rw [laneCode, codeAt, show (4 * j + t) / 4 = j by omega, show (4 * j + t) % 4 = t by omega]

/-- Four values from one key byte. -/
theorem avxQuad_decodes (m : Mem) (kp j dp : Nat) (prev : M128i) :
    Decodes m kp (4 * j) dp 4 (prev.lane32 3) (avxQuad m (m (kp + j)).toNat dp prev) := by
  set key := (m (kp + j)).toNat with hkeydef
  have hkey : key < 256 := UInt8.toNat_lt _
  obtain ⟨h1, h2⟩ := writeAvxD1_eq (decodeAvx m key dp).1 prev
  have hc : ∀ t, t < 4 → codeAt m kp (4 * j + t) = laneCode key t :=
    fun t ht => (laneCode_eq_codeAt m kp j t ht).symm
  have hc0 : codeAt m kp (4 * j) = laneCode key 0 := hc 0 (by omega)
  have hc1 : codeAt m kp (4 * j + 1) = laneCode key 1 := hc 1 (by omega)
  have hc2 : codeAt m kp (4 * j + 1 + 1) = laneCode key 2 := hc 2 (by omega)
  have hc3 : codeAt m kp (4 * j + 1 + 1 + 1) = laneCode key 3 := hc 3 (by omega)
  -- the table's offsets are where the format says that the values start
  have e1 : dp + laneStart key 1 = dp + laneCode key 0 + 1 := by simp only [laneStart]; omega
  have e2 : dp + laneStart key 2 = dp + laneCode key 0 + 1 + laneCode key 1 + 1 := by
    simp only [laneStart]; omega
  have e3 : dp + laneStart key 3
      = dp + laneCode key 0 + 1 + laneCode key 1 + 1 + laneCode key 2 + 1 := by
    simp only [laneStart]; omega
  refine ⟨?_, ?_, h2⟩
  · show (writeAvxD1 (decodeAvx m key dp).1 prev).1 = _
    rw [h1]
    simp only [rawsAt, hc0, hc1, hc2, hc3]
    rw [← e3, ← e2, ← e1, lane32_decodeAvx m key dp hkey 0, lane32_decodeAvx m key dp hkey 1,
      lane32_decodeAvx m key dp hkey 2, lane32_decodeAvx m key dp hkey 3]
    rfl
  · show dp + lengthTable.getD key 0 = _
    have hlen : lengthTable.getD key 0 = laneStart key 4 := by
      rw [lengthTable_eq, List.getD, List.getElem?_map, List.getElem?_range hkey]
      rfl
    rw [hlen]
    simp only [dataEnd, hc0, hc1, hc2, hc3, laneStart]
    omega

/-! ### Eight values with zero keys -/

/-- The upper half of the control-byte table `High16To32` widens the upper four lanes. -/
theorem lane32_high16To32 (v : M128i) (i : Fin 4) :
    (mmShuffleEpi8 v high16To32).lane32 i = UInt32.ofNat (v.lane16 ⟨4 + i, by omega⟩) := by
  fin_cases i <;> rfl

/-- `_write_16bit_avx_d1` computes running sums, provided the values are bytes. -/
theorem write16bitAvxD1_eq (vec prev : M128i) (hv : ∀ i, vec.lane16 i < 256) :
    (write16bitAvxD1 vec prev).1
        = undeltas (prev.lane32 3) ((List.finRange 8).map (fun i => UInt32.ofNat (vec.lane16 i)))
      ∧ (write16bitAvxD1 vec prev).2.lane32 3
        = (write16bitAvxD1 vec prev).1.getLastD (prev.lane32 3) := by
  refine ⟨?_, by simp [write16bitAvxD1, mmStoreuSi128]⟩
  -- no 16-bit lane overflows: two terms after the first addition, four after the second
  have hadd1 : ∀ i, (mmAddEpi32 vec (mmSlliSi128 vec 2)).lane16 i
      = vec.lane16 i + if h : i.val = 0 then 0 else vec.lane16 ⟨i - 1, by omega⟩ := by
    intro i
    rw [lane16_add, lane16_slli2]
    intro j
    rw [lane16_slli2]
    have := hv j
    split_ifs with hj
    · omega
    · have := hv ⟨j - 1, by omega⟩
      omega
  set vec2 := mmAddEpi32 vec (mmSlliSi128 vec 2) with hvec2
  have hlt2 : ∀ i, vec2.lane16 i < 512 := by
    intro i
    rw [hadd1]
    have := hv i
    split_ifs with hj
    · omega
    · have := hv ⟨i - 1, by omega⟩
      omega
  have hadd2 : ∀ i, (mmAddEpi32 vec2 (mmSlliSi128 vec2 4)).lane16 i
      = vec2.lane16 i + if h : i.val < 2 then 0 else vec2.lane16 ⟨i - 2, by omega⟩ := by
    intro i
    rw [lane16_add, lane16_slli4]
    intro j
    rw [lane16_slli4]
    have := hlt2 j
    split_ifs with hj
    · omega
    · have := hlt2 ⟨j - 2, by omega⟩
      omega
  simp only [write16bitAvxD1, mmStoreuSi128, broadcastLastXMM, lane32_add, lane32_broadcast,
    lane32_cvtepu16, lane32_high16To32, ← hvec2, hadd2, hadd1]
  simp [List.finRange, undeltas, UInt32.ofNat_add]
  refine ⟨?_, ?_, ?_, ?_, ?_, ?_, ?_⟩ <;> abel

/-- Values with code `0` are the data bytes. -/
theorem rawsAt_of_codeAt_zero {m : Mem} {kp : Nat} (n i dp : Nat)
    (h : ∀ t, t < n → codeAt m kp (i + t) = 0) :
    rawsAt m kp i dp n = (List.range n).map (fun t => UInt32.ofNat (m (dp + t)).toNat)
      ∧ dataEnd m kp i dp n = dp + n := by
  induction n generalizing i dp with
  | zero => exact ⟨rfl, rfl⟩
  | succ n ih =>
      have h0 : codeAt m kp i = 0 := h 0 (by omega)
      have hih := ih (i + 1) (dp + 1)
        (fun t ht => by rw [show i + 1 + t = i + (t + 1) by omega]; exact h (t + 1) (by omega))
      rw [rawsAt, dataEnd, h0, hih.1, hih.2, List.range_succ_eq_map, List.map_cons, List.map_map]
      refine ⟨?_, by omega⟩
      have hle : m.le dp (0 + 1) = (m dp).toNat := by simp [Mem.le]
      rw [hle]
      congr 1
      apply List.map_congr_left
      intro t _
      show UInt32.ofNat (m (dp + 1 + t)).toNat = UInt32.ofNat (m (dp + (t + 1))).toNat
      rw [show dp + 1 + t = dp + (t + 1) by omega]

theorem codeAt_eq_zero {m : Mem} {kp i : Nat} (h : m (kp + i / 4) = 0) : codeAt m kp i = 0 := by
  rw [codeAt, h]
  simp

/-- Eight values whose two key bytes are zero. -/
theorem avxOct_decodes (m : Mem) (kp j dp : Nat) (data prev : M128i)
    (h0 : m (kp + j) = 0) (h1 : m (kp + j + 1) = 0)
    (hdata : ∀ i : Fin 8, data ⟨i, Nat.lt_of_lt_of_le i.isLt (by decide)⟩ = m (dp + i)) :
    Decodes m kp (4 * j) dp 8 (prev.lane32 3) (avxOct data dp prev) := by
  have hlane : ∀ i, (mmCvtepu8Epi16 data).lane16 i = (m (dp + i)).toNat := by
    intro i
    rw [lane16_cvtepu8, hdata]
  obtain ⟨hout, hlast⟩ := write16bitAvxD1_eq (mmCvtepu8Epi16 data) prev
    (fun i => by rw [hlane]; exact UInt8.toNat_lt _)
  have hcodes : ∀ t, t < 8 → codeAt m kp (4 * j + t) = 0 := by
    intro t ht
    rcases Nat.lt_or_ge t 4 with h | h
    · exact codeAt_eq_zero (by rw [show (4 * j + t) / 4 = j by omega]; exact h0)
    · exact codeAt_eq_zero (by rw [show (4 * j + t) / 4 = j + 1 by omega]; exact h1)
  obtain ⟨hraws, hend⟩ := rawsAt_of_codeAt_zero 8 (4 * j) dp hcodes
  refine ⟨?_, hend.symm, hlast⟩
  show (write16bitAvxD1 (mmCvtepu8Epi16 data) prev).1 = _
  rw [hout, hraws]
  simp only [hlane]
  rfl

/-! ### Thirty-two values -/

/-- The two lower bytes of a key word. -/
theorem keys_and (m : Mem) (p k : Nat) (keys : UInt64) (h : keys.toNat = m.le p (k + 2)) :
    (keys &&& 0x00FF).toNat = (m p).toNat
      ∧ ((keys &&& 0xFF00) >>> 8).toNat = (m (p + 1)).toNat
      ∧ (keys >>> 16).toNat = m.le (p + 2) k := by
  have hb0 := UInt8.toNat_lt (m p)
  have hb1 := UInt8.toNat_lt (m (p + 1))
  simp only [Mem.le] at h
  refine ⟨?_, ?_, ?_⟩
  · have hmask : (0x00FF : UInt64).toNat = 2 ^ 8 - 1 := rfl
    rw [UInt64.toNat_and, hmask, Nat.and_two_pow_sub_one_eq_mod, h]
    omega
  · have hmask : (0xFF00 : UInt64).toNat = 0xFF00 := rfl
    have h8 : (8 : UInt64).toNat % 64 = 8 := rfl
    have hmask' : (0xFF00 : Nat) >>> 8 = 2 ^ 8 - 1 := rfl
    rw [UInt64.toNat_shiftRight, UInt64.toNat_and, hmask, h8, Nat.shiftRight_and_distrib, hmask',
      Nat.and_two_pow_sub_one_eq_mod, Nat.shiftRight_eq_div_pow, h]
    omega
  · have h16 : (16 : UInt64).toNat % 64 = 16 := rfl
    rw [UInt64.toNat_shiftRight, h16, Nat.shiftRight_eq_div_pow, h, show p + 2 = p + 1 + 1 from rfl]
    omega

/-- Eight values from the two lower bytes of a key word. -/
theorem avxPair_decodes (m : Mem) (kp j k dp : Nat) (keys : UInt64) (prev : M128i)
    (h : keys.toNat = m.le (kp + j) (k + 2)) :
    Decodes m kp (4 * j) dp 8 (prev.lane32 3) (avxPair m keys dp prev) := by
  obtain ⟨h0, h1, -⟩ := keys_and m (kp + j) k keys h
  unfold avxPair
  rw [h0, h1]
  have h2 := avxQuad_decodes m kp j dp prev
  have h3 := avxQuad_decodes m kp (j + 1) (avxQuad m (m (kp + j)).toNat dp prev).dataPtr
    (avxQuad m (m (kp + j)).toNat dp prev).prev
  exact h2.andThen (by omega) h3

theorem load64_toNat (m : Mem) (p : Nat) : (load64 m p).toNat = m.le p 8 := by
  have := m.le_lt p 8
  rw [load64, UInt64.toNat_ofNat', Nat.mod_eq_of_lt (by omega)]

/-- The loads of the source agree on the eight bytes that are used. -/
def LoadsLow (load : Mem → Nat → M128i) : Prop :=
  ∀ (m : Mem) (p : Nat) (i : Fin 8),
    load m p ⟨i, Nat.lt_of_lt_of_le i.isLt (by decide)⟩ = m (p + i)

theorem loadsLow_lddqu : LoadsLow mmLddquSi128 := fun _ _ _ => rfl

theorem loadsLow_loadl : LoadsLow mmLoadlEpi64 := by
  intro m p i
  simp [mmLoadlEpi64, i.isLt]

/-- One round of the vector loop. -/
theorem avxBlock_decodes {load : Mem → Nat → M128i} (hload : LoadsLow load) (m : Mem)
    (kp q dp : Nat) (prev : M128i) :
    Decodes m kp (32 * q) dp 32 (prev.lane32 3)
      (avxBlock m load (load64 m (kp + 8 * q)) dp prev) := by
  set keys := load64 m (kp + 8 * q) with hkeys
  have hk : keys.toNat = m.le (kp + 8 * q) (6 + 2) := load64_toNat m _
  have hassoc : ∀ t, kp + 8 * q + t = kp + (8 * q + t) := fun t => Nat.add_assoc _ _ _
  rw [show 32 * q = 4 * (8 * q) by omega]
  unfold avxBlock
  by_cases hz : keys = 0
  · rw [if_pos hz]
    -- the shortcut: eight key bytes zero, so 32 values of one byte, in four groups of eight
    have hbyte : ∀ t, t < 8 → m (kp + (8 * q + t)) = 0 := by
      intro t ht
      rw [← hassoc]
      refine Mem.eq_zero_of_le_eq_zero (k := 8) ?_ t ht
      rw [← load64_toNat, ← hkeys, hz]
      rfl
    have h1 := avxOct_decodes m kp (8 * q) dp (mmLddquSi128 m dp) prev (hbyte 0 (by omega))
      (hbyte 1 (by omega)) (loadsLow_lddqu m dp)
    have h2 := h1.andThen (f := fun p => avxOct (mmLddquSi128 m p) p) (by omega)
      (avxOct_decodes m kp (8 * q + 2) _ _ _ (hbyte 2 (by omega)) (hbyte 3 (by omega))
        (loadsLow_lddqu m _))
    have h3 := h2.andThen (f := fun p => avxOct (mmLddquSi128 m p) p) (by omega)
      (avxOct_decodes m kp (8 * q + 4) _ _ _ (hbyte 4 (by omega)) (hbyte 5 (by omega))
        (loadsLow_lddqu m _))
    exact h3.andThen (f := fun p => avxOct (load m p) p) (by omega)
      (avxOct_decodes m kp (8 * q + 6) _ _ _ (hbyte 6 (by omega)) (hbyte 7 (by omega))
        (hload m _))
  · rw [if_neg hz]
    -- two key bytes at a time are shifted out of `keys`
    obtain ⟨-, -, hk2⟩ := keys_and m (kp + 8 * q) 6 keys hk
    obtain ⟨-, -, hk4⟩ := keys_and m (kp + 8 * q + 2) 4 _ hk2
    obtain ⟨-, -, hk6⟩ := keys_and m (kp + 8 * q + 2 + 2) 2 _ hk4
    rw [hassoc] at hk2
    rw [Nat.add_assoc (kp + 8 * q), hassoc] at hk4
    rw [Nat.add_assoc (kp + 8 * q + 2), Nat.add_assoc (kp + 8 * q), hassoc] at hk6
    have h1 := avxPair_decodes m kp (8 * q) 6 dp keys prev hk
    have h2 := h1.andThen (f := avxPair m (keys >>> 16)) (by omega)
      (avxPair_decodes m kp (8 * q + 2) 4 _ _ _ hk2)
    have h3 := h2.andThen (f := avxPair m (keys >>> 16 >>> 16)) (by omega)
      (avxPair_decodes m kp (8 * q + (2 + 2)) 2 _ _ _ hk4)
    exact h3.andThen (f := avxPair m (keys >>> 16 >>> 16 >>> 16)) (by omega)
      (avxPair_decodes m kp (8 * q + (2 + (2 + 2))) 0 _ _ _ hk6)

/-- A run of the vector loop. -/
theorem avxLoop_decodes (m : Mem) (kp rem j dp : Nat) (prev : M128i) :
    Decodes m kp (32 * j) dp (32 * (rem + 1)) (prev.lane32 3)
      (avxLoop m kp rem j (load64 m (kp + 8 * j)) dp prev) := by
  induction rem generalizing j dp prev with
  | zero => exact avxBlock_decodes loadsLow_loadl m kp j dp prev
  | succ rem ih =>
      have h := (avxBlock_decodes loadsLow_lddqu m kp j dp prev).andThen
        (f := avxLoop m kp rem (j + 1) (load64 m (kp + 8 * (j + 1)))) (by omega) (ih (j + 1) _ _)
      rw [show 32 * (rem + 1 + 1) = 32 + 32 * (rem + 1) by omega]
      exact h

/-! ## The whole decoder -/

/-- **The vector decoder reads the format**, whatever is in memory: it agrees with the scalar
decoder on every input. -/
theorem svbDecodeAvxD1Init_eq (m : Mem) (kp dp count : Nat) (prev : UInt32) :
    svbDecodeAvxD1Init m kp dp count prev
      = (undeltas prev (rawsAt m kp 0 dp count), dataEnd m kp 0 dp count) := by
  have h7 : ∀ x : Nat, x &&& 7 = x % 8 := fun x => Nat.and_two_pow_sub_one_eq_mod x 3
  have h31 : ∀ x : Nat, x &&& 31 = x % 32 := fun x => Nat.and_two_pow_sub_one_eq_mod x 5
  unfold svbDecodeAvxD1Init
  simp only [h7, h31, svbDecodeScalarD1Init_eq]
  by_cases hk : count / 4 ≥ 8
  · rw [if_pos hk]
    have h := avxLoop_decodes m kp (count / 4 / 8 - 1) 0 dp (mmSet1Epi32 prev)
    rw [lane32_set1, show 32 * (count / 4 / 8 - 1 + 1) = 4 * (8 * (count / 32)) by omega] at h
    simp only [Nat.mul_zero, Nat.add_zero] at h
    set r := avxLoop m kp (count / 4 / 8 - 1) 0 (load64 m kp) dp (mmSet1Epi32 prev) with hr
    -- the scalar decoder takes over at a key byte boundary
    have hkp : kp + (count / 4 - count / 4 % 8) = kp + 8 * (count / 32) := by omega
    have hsplit : count = 4 * (8 * (count / 32)) + count % 32 := by omega
    rw [hkp, h.dataPtr, ← rawsAt_shift m kp 0 _ (8 * (count / 32)),
      ← dataEnd_shift m kp 0 _ (8 * (count / 32)), h.out]
    conv_rhs => rw [hsplit, rawsAt_add, dataEnd_add, undeltas_append]
  · rw [if_neg hk, show count / 4 - count / 4 % 8 = 0 by omega, show count % 32 = count by omega,
      Nat.add_zero]

/-- **What `streamvbyte_delta_decode` returns**, for any memory. -/
theorem streamvbyteDeltaDecode_eq (m : Mem) (count prev : UInt32) :
    streamvbyteDeltaDecode m count prev
      = (undeltas prev (rawsAt m 0 0 (keyLen count) count.toNat),
        dataEnd m 0 0 (keyLen count) count.toNat) :=
  svbDecodeAvxD1Init_eq m 0 (keyLen count) count.toNat prev

end CSearch.StreamVByte
