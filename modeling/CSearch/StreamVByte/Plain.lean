import CSearch.Tool.Chunk

set_option autoImplicit false

/-! # The codec of `streamvbyte.c`

`streamvbyte.c` has the same format as `streamvbytedelta.c` and stores the values themselves. The
tables and the functions for one value are copies, so they are not repeated here. The loops are: the
encoder has no `prev`, and the vector decoder has neither sums nor the shortcut for small values.

The two codecs fit together: the one with differences is this one, applied to the differences
(`delta_factors`).
-/

namespace CSearch.StreamVByte

open M128i

/-! ## The encoder of the source -/

/-- The rest of the loop body of `svb_encode_scalar`, for the value `val`. There is no `prev` in this
loop, and the field is left alone. -/
def EncState.pushPlain (s : EncState) (val : UInt32) : EncState :=
  let r := encodeData val s.out s.dataPtr
  { s with
    out := r.1
    dataPtr := r.2.1
    key := s.key ||| (r.2.2 <<< s.shift)
    shift := s.shift + 2 }

/-- One round of the loop of `svb_encode_scalar`. -/
def encodePlainStep (s : EncState) (val : UInt32) : EncState := s.emitKey.pushPlain val

/-- `svb_encode_scalar`: the buffer after the run and the pointer behind the data. -/
def svbEncodeScalar (inp : List UInt32) (out : Mem) (keyPtr dataPtr count : Nat) : Mem × Nat :=
  if count = 0 then (out, dataPtr) -- exit immediately if no data
  else
    let s := (inp.take count).foldl encodePlainStep ⟨out, keyPtr, dataPtr, 0, 0, 0⟩
    (s.out.store s.keyPtr [s.key], s.dataPtr) -- write last key

/-- `streamvbyte_encode`: the buffer after the run and the number of bytes. -/
def streamvbyteEncode (inp : List UInt32) (count : UInt32) (out : Mem) : Mem × Nat :=
  svbEncodeScalar inp out 0 (keyLen count) count.toNat

/-! ## The decoders of the source -/

/-- The rest of the loop body of `svb_decode_scalar`: the value stored, and the variables. -/
def DecState.pullPlain (m : Mem) (s : DecState) : UInt32 × DecState :=
  let r := decodeData m s.dataPtr ((s.key >>> s.shift) &&& 3)
  (r.1, { s with dataPtr := r.2, shift := s.shift + 2 })

/-- The loop of `svb_decode_scalar` for the last `n` values. -/
def decodePlainLoop (m : Mem) : Nat → DecState → List UInt32 × Nat
  | 0, s => ([], s.dataPtr)
  | n + 1, s =>
      let p := (s.fetchKey m).pullPlain m
      let r := decodePlainLoop m n p.2
      (p.1 :: r.1, r.2)

/-- `svb_decode_scalar`. -/
def svbDecodeScalar (m : Mem) (keyPtr dataPtr count : Nat) : List UInt32 × Nat :=
  if count = 0 then ([], dataPtr) -- no reads or writes if no data
  else decodePlainLoop m count ⟨keyPtr + 1, dataPtr, 0, (m keyPtr).toUInt32, 0⟩

/-- Values stored, with the pointer behind their data, and then more values from there. -/
def andStore (r : List UInt32 × Nat) (f : Nat → List UInt32 × Nat) : List UInt32 × Nat :=
  (r.1 ++ (f r.2).1, (f r.2).2)

/-- `Data = _decode_avx(key, &dataPtr); _write_avx(out, Data);` -/
def simpleQuad (m : Mem) (key : Nat) (dataPtr : Nat) : List UInt32 × Nat :=
  let d := decodeAvx m key dataPtr
  (mmStoreuSi128 d.1, d.2)

/-- The two lower bytes of `keys`. -/
def simplePair (m : Mem) (keys : UInt64) (dataPtr : Nat) : List UInt32 × Nat :=
  andStore (simpleQuad m (keys &&& 0xFF).toNat dataPtr) (simpleQuad m ((keys &&& 0xFF00) >>> 8).toNat)

/-- The body of the loop of `svb_decode_avx_simple`: 32 values. -/
def simpleBlock (m : Mem) (keys : UInt64) (dataPtr : Nat) : List UInt32 × Nat :=
  andStore (andStore (andStore (simplePair m keys dataPtr)
    (simplePair m (keys >>> 16)))
    (simplePair m (keys >>> 16 >>> 16)))
    (simplePair m (keys >>> 16 >>> 16 >>> 16))

/-- The loop of `svb_decode_avx_simple` and the last round behind it, counted as in `avxLoop`. -/
def simpleLoop (m : Mem) (keyPtr : Nat) : (rem j : Nat) → (nextkeys : UInt64) → Nat →
    List UInt32 × Nat
  | 0, _, nextkeys, dataPtr => simpleBlock m nextkeys dataPtr
  | rem + 1, j, nextkeys, dataPtr =>
      andStore (simpleBlock m nextkeys dataPtr)
        (simpleLoop m keyPtr rem (j + 1) (load64 m (keyPtr + 8 * (j + 1))))

/-- `svb_decode_avx_simple`. -/
def svbDecodeAvxSimple (m : Mem) (keyPtr dataPtr count : Nat) : List UInt32 × Nat :=
  let keybytes := count / 4 -- number of key bytes
  let consumedkeys := keybytes - (keybytes &&& 7)
  if keybytes ≥ 8 then
    andStore (simpleLoop m keyPtr (keybytes / 8 - 1) 0 (load64 m keyPtr) dataPtr)
      (fun p => svbDecodeScalar m (keyPtr + consumedkeys) p (count &&& 31))
  else svbDecodeScalar m (keyPtr + consumedkeys) dataPtr (count &&& 31)

/-- `streamvbyte_decode`: the values and the number of bytes read. -/
def streamvbyteDecode (m : Mem) (count : UInt32) : List UInt32 × Nat :=
  if count = 0 then ([], 0)
  else svbDecodeAvxSimple m 0 (keyLen count) count.toNat

/-! ## The encoder -/

/-- The encoder without `prev`, run on the differences, leaves the same buffer and variables. -/
theorem foldl_encodePlainStep (xs : List UInt32) (s s' : EncState)
    (h : s' = { s with prev := s'.prev }) :
    (deltas s.prev xs).foldl encodePlainStep s'
      = { xs.foldl encodeStep s with prev := s'.prev } := by
  induction xs generalizing s s' with
  | nil => exact h
  | cons x xs ih =>
      have hstep : encodePlainStep s' (x - s.prev) = { encodeStep s x with prev := s'.prev } := by
        rw [h]
        simp only [encodePlainStep, encodeStep, EncState.emitKey, EncState.pushPlain, EncState.push]
        split <;> rfl
      have hrest := ih (encodeStep s x) (encodePlainStep s' (x - s.prev)) (by rw [hstep])
      rw [deltas, List.foldl_cons, List.foldl_cons]
      rw [show (encodeStep s x).prev = x from rfl] at hrest
      rw [hrest, hstep]

theorem deltas_take {α : Type} [AddCommGroup α] (prev : α) (xs : List α) (n : Nat) :
    deltas prev (xs.take n) = (deltas prev xs).take n := by
  induction xs generalizing prev n with
  | nil => rw [List.take_nil]; exact List.take_nil.symm
  | cons x xs ih =>
      cases n with
      | zero => rfl
      | succ n => rw [List.take_succ_cons, deltas, deltas, List.take_succ_cons, ih]

/-- Encoding with differences is encoding the differences. -/
theorem deltaEncode_eq (inp : List UInt32) (count : UInt32) (out : Mem) (prev : UInt32) :
    streamvbyteDeltaEncode inp count out prev = streamvbyteEncode (deltas prev inp) count out := by
  unfold streamvbyteDeltaEncode svbEncodeScalarD1Init streamvbyteEncode svbEncodeScalar
  have hfold := foldl_encodePlainStep (inp.take count.toNat) ⟨out, 0, keyLen count, 0, 0, prev⟩
    ⟨out, 0, keyLen count, 0, 0, 0⟩ rfl
  rw [deltas_take] at hfold
  simp only [hfold]

/-- **What `streamvbyte_encode` writes.** -/
theorem streamvbyteEncode_eq (inp : List UInt32) (count : UInt32) (out : Mem)
    (hcount : count.toNat ≤ inp.length) :
    streamvbyteEncode inp count out
      = ((out.store (keyLen count) (dataBytes (inp.take count.toNat))).store 0
          (keyBytes (inp.take count.toNat)),
        keyLen count + dataSize (inp.take count.toNat)) := by
  have hsums : deltas 0 (undeltas 0 inp) = inp := deltas_undeltas 0 inp
  have hdelta := streamvbyteDeltaEncode_eq (undeltas 0 inp) count out 0
    (by rw [undeltas_length]; exact hcount)
  rw [deltaEncode_eq, deltas_take, hsums] at hdelta
  exact hdelta

/-! ## The scalar decoder -/

/-- The values that memory stands for and the pointer behind their data, from any pointer on. -/
def readsAt (m : Mem) (kp i n dp : Nat) : List UInt32 × Nat := (rawsAt m kp i dp n, dataEnd m kp i dp n)

theorem undeltas_inj {α : Type} [AddCommGroup α] {prev : α} {as bs : List α}
    (h : undeltas prev as = undeltas prev bs) : as = bs := by
  rw [← deltas_undeltas prev as, h, deltas_undeltas]

/-- The loop with sums returns the running sums of what the loop without sums returns. -/
theorem decodeScalarLoop_plain (m : Mem) (n : Nat) (s s' : DecState)
    (h : s' = { s with prev := s'.prev }) :
    decodeScalarLoop m n s
      = (undeltas s.prev (decodePlainLoop m n s').1, (decodePlainLoop m n s').2) := by
  induction n generalizing s s' with
  | zero =>
      rw [h]
      rfl
  | succ n ih =>
      have hstep : ((s'.fetchKey m).pullPlain m).2
            = { (s.fetchKey m).pull m with prev := s'.prev }
          ∧ ((s.fetchKey m).pull m).prev = ((s'.fetchKey m).pullPlain m).1 + s.prev := by
        rw [h]
        simp only [DecState.fetchKey, DecState.pull, DecState.pullPlain]
        split <;> exact ⟨rfl, rfl⟩
      have hrest := ih ((s.fetchKey m).pull m) ((s'.fetchKey m).pullPlain m).2 (by rw [hstep.1])
      simp only [decodeScalarLoop, decodePlainLoop, undeltas, hrest, hstep.2]

theorem svbDecodeScalar_eq (m : Mem) (kp dp n : Nat) :
    svbDecodeScalar m kp dp n = readsAt m kp 0 n dp := by
  have hdelta := svbDecodeScalarD1Init_eq m kp dp n 0
  unfold svbDecodeScalarD1Init at hdelta
  unfold svbDecodeScalar
  by_cases hn : n = 0
  · rw [if_pos hn, hn]
    rfl
  · rw [if_neg hn, decodeScalarLoop_plain m n _ ⟨kp + 1, dp, 0, (m kp).toUInt32, 0⟩ rfl,
      Prod.mk.injEq] at hdelta
    rw [if_neg hn]
    exact Prod.ext (undeltas_inj hdelta.1) hdelta.2

/-! ## The vector decoder -/

theorem andStore_readsAt (m : Mem) (kp i n k dp : Nat) :
    andStore (readsAt m kp i n dp) (readsAt m kp (i + n) k) = readsAt m kp i (n + k) dp := by
  rw [readsAt, readsAt, rawsAt_add, dataEnd_add]
  rfl

/-- Four values from one key byte. -/
theorem simpleQuad_eq (m : Mem) (kp j : Nat) :
    simpleQuad m (m (kp + j)).toNat = readsAt m kp (4 * j) 4 := by
  funext dp
  have hsums := avxQuad_decodes m kp j dp (mmSet1Epi32 0)
  have hout : undeltas ((mmSet1Epi32 0).lane32 3) (simpleQuad m (m (kp + j)).toNat dp).1
      = undeltas ((mmSet1Epi32 0).lane32 3) (rawsAt m kp (4 * j) dp 4) :=
    (writeAvxD1_eq _ _).1.symm.trans hsums.out
  exact Prod.ext (undeltas_inj hout) hsums.dataPtr

/-- Eight values from the two lower bytes of a key word. -/
theorem simplePair_eq (m : Mem) (kp j k : Nat) (keys : UInt64)
    (h : keys.toNat = m.le (kp + j) (k + 2)) : simplePair m keys = readsAt m kp (4 * j) 8 := by
  funext dp
  obtain ⟨h0, h1, -⟩ := keys_and m (kp + j) k keys h
  rw [simplePair, h0, h1, Nat.add_assoc, simpleQuad_eq, simpleQuad_eq]
  exact andStore_readsAt m kp (4 * j) 4 4 dp

/-- One round of the vector loop. -/
theorem simpleBlock_eq (m : Mem) (kp q : Nat) :
    simpleBlock m (load64 m (kp + 8 * q)) = readsAt m kp (32 * q) 32 := by
  funext dp
  set keys := load64 m (kp + 8 * q) with hkeys
  have hk : keys.toNat = m.le (kp + 8 * q) (6 + 2) := load64_toNat m _
  -- two key bytes at a time are shifted out of `keys`
  obtain ⟨-, -, hk2⟩ := keys_and m (kp + 8 * q) 6 keys hk
  obtain ⟨-, -, hk4⟩ := keys_and m (kp + 8 * q + 2) 4 _ hk2
  obtain ⟨-, -, hk6⟩ := keys_and m (kp + 8 * q + 2 + 2) 2 _ hk4
  rw [simpleBlock, simplePair_eq m kp (8 * q) 6 keys hk,
    simplePair_eq m kp (8 * q + 2) 4 (keys >>> 16) hk2,
    simplePair_eq m kp (8 * q + 2 + 2) 2 (keys >>> 16 >>> 16) hk4,
    simplePair_eq m kp (8 * q + 2 + 2 + 2) 0 (keys >>> 16 >>> 16 >>> 16) hk6]
  rw [show 4 * (8 * q + 2) = 4 * (8 * q) + 8 by omega, andStore_readsAt,
    show 4 * (8 * q + 2 + 2) = 4 * (8 * q) + (8 + 8) by omega, andStore_readsAt,
    show 4 * (8 * q + 2 + 2 + 2) = 4 * (8 * q) + (8 + 8 + 8) by omega, andStore_readsAt,
    show 4 * (8 * q) = 32 * q by omega]

/-- A run of the vector loop. -/
theorem simpleLoop_eq (m : Mem) (kp rem j : Nat) :
    simpleLoop m kp rem j (load64 m (kp + 8 * j)) = readsAt m kp (32 * j) (32 * (rem + 1)) := by
  induction rem generalizing j with
  | zero =>
      funext dp
      rw [simpleLoop, simpleBlock_eq]
  | succ rem ih =>
      funext dp
      rw [simpleLoop, simpleBlock_eq, ih, show 32 * (j + 1) = 32 * j + 32 by omega, andStore_readsAt,
        show 32 + 32 * (rem + 1) = 32 * (rem + 1 + 1) by omega]

/-- The vector decoder reads the format, whatever is in memory. -/
theorem svbDecodeAvxSimple_eq (m : Mem) (kp dp count : Nat) :
    svbDecodeAvxSimple m kp dp count = readsAt m kp 0 count dp := by
  have h7 : ∀ x : Nat, x &&& 7 = x % 8 := fun x => Nat.and_two_pow_sub_one_eq_mod x 3
  have h31 : ∀ x : Nat, x &&& 31 = x % 32 := fun x => Nat.and_two_pow_sub_one_eq_mod x 5
  unfold svbDecodeAvxSimple
  simp only [h7, h31, svbDecodeScalar_eq]
  by_cases hk : count / 4 ≥ 8
  · have hloop := simpleLoop_eq m kp (count / 4 / 8 - 1) 0
    rw [Nat.mul_zero, Nat.add_zero] at hloop
    -- the scalar decoder takes over at a key byte boundary
    have hrest : ∀ p, readsAt m (kp + (count / 4 - count / 4 % 8)) 0 (count % 32) p
        = readsAt m kp (0 + 32 * (count / 4 / 8 - 1 + 1)) (count % 32) p := by
      intro p
      rw [readsAt, readsAt, show 32 * (count / 4 / 8 - 1 + 1) = 4 * (8 * (count / 32)) by omega,
        show count / 4 - count / 4 % 8 = 8 * (count / 32) by omega, rawsAt_shift, dataEnd_shift]
    rw [if_pos hk, hloop, funext hrest, andStore_readsAt,
      show 32 * (count / 4 / 8 - 1 + 1) + count % 32 = count by omega]
  · rw [if_neg hk, show count / 4 - count / 4 % 8 = 0 by omega, show count % 32 = count by omega,
      Nat.add_zero]

/-- **What `streamvbyte_decode` returns**, for any memory. -/
theorem streamvbyteDecode_eq (m : Mem) (count : UInt32) :
    streamvbyteDecode m count = readsAt m 0 0 count.toNat (keyLen count) := by
  unfold streamvbyteDecode
  split
  · next h =>
    rw [h]
    rfl
  · exact svbDecodeAvxSimple_eq m 0 (keyLen count) count.toNat

/-! ## Results -/

/-- **The vector decoder is the scalar decoder**, on any memory and for any number of values. -/
theorem avxSimple_eq_scalar (m : Mem) (keyPtr dataPtr count : Nat) :
    svbDecodeAvxSimple m keyPtr dataPtr count = svbDecodeScalar m keyPtr dataPtr count := by
  rw [svbDecodeAvxSimple_eq, svbDecodeScalar_eq]

/-- **The two codecs.** With differences is without, applied to the differences: the same bytes are
written, and from any memory the running sums of the same values are read and as many bytes are
used. -/
theorem delta_factors (inp : List UInt32) (count : UInt32) (m : Mem) (prev : UInt32) :
    streamvbyteDeltaEncode inp count m prev = streamvbyteEncode (deltas prev inp) count m
      ∧ streamvbyteDeltaDecode m count prev
        = (undeltas prev (streamvbyteDecode m count).1, (streamvbyteDecode m count).2) := by
  refine ⟨deltaEncode_eq inp count m prev, ?_⟩
  rw [streamvbyteDeltaDecode_eq, streamvbyteDecode_eq]
  rfl

/-- **The round trip of `streamvbyte.c`**: from any memory with the bytes that were written, what was
encoded is decoded, and as many bytes are read as were written. For more values the sum in the length
of the key area wraps around. -/
theorem plain_roundTrip (inp : List UInt32) (count : UInt32) (out m : Mem)
    (hcount : count.toNat ≤ inp.length) (hwrap : count.toNat + 3 < 2 ^ 32)
    (hm : ∀ a, a < (streamvbyteEncode inp count out).2 → m a = (streamvbyteEncode inp count out).1 a) :
    streamvbyteDecode m count = (inp.take count.toNat, (streamvbyteEncode inp count out).2) := by
  have hkey : keyLen count = (count.toNat + 3) / 4 := by
    rw [keyLen_toNat, Nat.mod_eq_of_lt hwrap]
  rw [streamvbyteEncode_eq inp count out hcount] at hm ⊢
  set ds := inp.take count.toNat with hds
  have hlen : ds.length = count.toNat := List.length_take_of_le hcount
  have hkeyBytes : (keyBytes ds).length = keyLen count := by
    rw [keyBytes_length, hlen, hkey]
  have hkeys : m.Holds 0 (keyBytes ds) := by
    refine (Mem.holds_store (out.store (keyLen count) (dataBytes ds)) 0 _).congr (fun a _ ha => ?_)
    rw [hkeyBytes] at ha
    exact (hm a (by show a < keyLen count + dataSize ds; omega)).symm
  -- the key bytes end where the data bytes begin
  have hdata : m.Holds (keyLen count) (dataBytes ds) := by
    refine (Mem.holds_store out (keyLen count) _).congr (fun a hge hlt => ?_)
    rw [dataBytes_length] at hlt
    rw [hm a hlt]
    exact (Mem.store_ge _ 0 (keyBytes ds) a (by omega)).symm
  obtain ⟨hraws, hend⟩ := rawsAt_of_holds ds 0
    (fun j d hj => by rw [Nat.zero_add]; exact Tool.codeAt_of_holds_keys hkeys j d hj) hdata
  rw [hlen] at hraws hend
  rw [streamvbyteDecode_eq]
  exact Prod.ext hraws hend

theorem plain_roundTrip_five :
    (5 : UInt32).toNat + 3 < 2 ^ 32
      ∧ (streamvbyteDecode (streamvbyteEncode [7, 300, 70000, 20000000, 0] 5 (fun _ => 0)).1 5).1
        = [7, 300, 70000, 20000000, 0] :=
  ⟨by decide, congrArg Prod.fst (plain_roundTrip [7, 300, 70000, 20000000, 0] 5 (fun _ => 0) _
    (by decide) (by decide) (fun _ _ => rfl))⟩

/-- **The encoder is economical**: whatever memory is decoded, encoding the values again takes no more
bytes than were read. -/
theorem reencode_le (m out : Mem) (count : UInt32) :
    (streamvbyteEncode (streamvbyteDecode m count).1 count out).2 ≤ (streamvbyteDecode m count).2 := by
  have hlen : (rawsAt m 0 0 (keyLen count) count.toNat).length = count.toNat := rawsAt_length ..
  rw [streamvbyteDecode_eq]
  show (streamvbyteEncode (rawsAt m 0 0 (keyLen count) count.toNat) count out).2 ≤ _
  rw [streamvbyteEncode_eq _ _ _ hlen.ge]
  have htake : (rawsAt m 0 0 (keyLen count) count.toNat).take count.toNat
      = rawsAt m 0 0 (keyLen count) count.toNat := List.take_of_length_le hlen.le
  rw [htake]
  exact dataSize_rawsAt_le m 0 0 (keyLen count) count.toNat

end CSearch.StreamVByte
