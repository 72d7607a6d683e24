import Forge.Hash.Fips180

/-!
# The `Sha256` class of `worker.cpp` computes SHA-256

Model of lines 46–202 of `worker.cpp`. The object holds the chaining value
`h_`, the bit count `bits_` and the first `buf_len_` bytes of `buf_` (`buf`
here, always fewer than 64 between calls).

Main results:

* `transform_eq`: one `transform` is the compression function of the standard.
* `Sha256.Fed.updateRaw`: the copy loop of `update` and `update_raw` keeps
  `BlockFold.Absorbed`, whatever the length of the piece.
* `padZeros_eq`: the padding loop ends for every fill level, after at most 63
  zero bytes.
* `final_eq_sha256`: `final` after any sequence of `update` calls is the FIPS
  180-4 digest of the concatenated pieces.
-/

namespace Forge

open Fips180 (Word Words)
open BlockFold (Absorbed)

/-! ## Model -/

/-- The table `K` of `transform`. -/
def kTable : List Word :=
  [0x428a2f98, 0x71374491, 0xb5c0fbcf, 0xe9b5dba5, 0x3956c25b,
   0x59f111f1, 0x923f82a4, 0xab1c5ed5, 0xd807aa98, 0x12835b01,
   0x243185be, 0x550c7dc3, 0x72be5d74, 0x80deb1fe, 0x9bdc06a7,
   0xc19bf174, 0xe49b69c1, 0xefbe4786, 0x0fc19dc6, 0x240ca1cc,
   0x2de92c6f, 0x4a7484aa, 0x5cb0a9dc, 0x76f988da, 0x983e5152,
   0xa831c66d, 0xb00327c8, 0xbf597fc7, 0xc6e00bf3, 0xd5a79147,
   0x06ca6351, 0x14292967, 0x27b70a85, 0x2e1b2138, 0x4d2c6dfc,
   0x53380d13, 0x650a7354, 0x766a0abb, 0x81c2c92e, 0x92722c85,
   0xa2bfe8a1, 0xa81a664b, 0xc24b8b70, 0xc76c51a3, 0xd192e819,
   0xd6990624, 0xf40e3585, 0x106aa070, 0x19a4c116, 0x1e376c08,
   0x2748774c, 0x34b0bcb5, 0x391c0cb3, 0x4ed8aa4a, 0x5b9cca4f,
   0x682e6ff3, 0x748f82ee, 0x78a5636f, 0x84c87814, 0x8cc70208,
   0x90befffa, 0xa4506ceb, 0xbef9a3f7, 0xc67178f2]

/-- `rotr(x, n)`. -/
def rotr (x : Word) (n : ℕ) : Word := (x >>> n) ||| (x <<< (32 - n))

/-- `load_be(p)`. -/
def loadBe (p : Bytes) : Word :=
  ((p.getD 0 0).toBitVec.setWidth 32 <<< 24) ||| ((p.getD 1 0).toBitVec.setWidth 32 <<< 16) |||
    ((p.getD 2 0).toBitVec.setWidth 32 <<< 8) ||| (p.getD 3 0).toBitVec.setWidth 32

/-- The body of `for (int i = 16; i < 64; ++i)`, appending `w[i]`. -/
def scheduleBody (w : List Word) (i : ℕ) : List Word :=
  let x := w.getD (i - 15) 0
  let y := w.getD (i - 2) 0
  let s0 := rotr x 7 ^^^ rotr x 18 ^^^ (x >>> 3)
  let s1 := rotr y 17 ^^^ rotr y 19 ^^^ (y >>> 10)
  w ++ [w.getD (i - 16) 0 + s0 + w.getD (i - 7) 0 + s1]

/-- The array `w` of `transform`. -/
def scheduleWords (block : Bytes) : List Word :=
  (List.range' 16 48).foldl scheduleBody ((List.range 16).map fun i => loadBe (block.drop (i * 4)))

/-- The body of the 64-round loop on the variables `a … h`. -/
def roundBody (w : List Word) (v : Words) (i : ℕ) : Words :=
  let S1 := rotr v.e 6 ^^^ rotr v.e 11 ^^^ rotr v.e 25
  let ch := (v.e &&& v.f) ^^^ (~~~v.e &&& v.g)
  let temp1 := v.h + S1 + ch + kTable.getD i 0 + w.getD i 0
  let S0 := rotr v.a 2 ^^^ rotr v.a 13 ^^^ rotr v.a 22
  let maj := (v.a &&& v.b) ^^^ (v.a &&& v.c) ^^^ (v.b &&& v.c)
  let temp2 := S0 + maj
  { h := v.g, g := v.f, f := v.e, e := v.d + temp1, d := v.c, c := v.b, b := v.a,
    a := temp1 + temp2 }

/-- `transform(block)`, on the chaining value `h_`. -/
def transform (h : Words) (block : Bytes) : Words :=
  let v := (List.range 64).foldl (roundBody (scheduleWords block)) h
  ⟨h.a + v.a, h.b + v.b, h.c + v.c, h.d + v.d, h.e + v.e, h.f + v.f, h.g + v.g, h.h + v.h⟩

/-- A `Sha256` object. -/
structure Sha256 where
  h : Words
  bits : BitVec 64
  buf : Bytes
  buf_lt : buf.length < 64

namespace Sha256

/-- `reset()`. -/
def init : Sha256 where
  h := ⟨0x6a09e667, 0xbb67ae85, 0x3c6ef372, 0xa54ff53a,
        0x510e527f, 0x9b05688c, 0x1f83d9ab, 0x5be0cd19⟩
  bits := 0
  buf := []
  buf_lt := by decide

/-- `len < room ? len : room` with `room = 64 - buf_len_`. -/
def takeLen (st : Sha256) (data : Bytes) : ℕ :=
  if data.length < 64 - st.buf.length then data.length else 64 - st.buf.length

theorem takeLen_eq (st : Sha256) (data : Bytes) :
    st.takeLen data = min data.length (64 - st.buf.length) := by
  unfold takeLen; split_ifs <;> omega

/-- The body of the loop of `update` and `update_raw`: copy what fits into the
    buffer and run `transform` when it is full. -/
def take (st : Sha256) (data : Bytes) : Sha256 :=
  let buf := st.buf ++ data.take (st.takeLen data)
  if hfull : buf.length = 64 then { st with h := transform st.h buf, buf := [], buf_lt := by decide }
  else { st with
    buf := buf
    buf_lt := by
      have := st.buf_lt
      simp only [buf, takeLen_eq, List.length_append, List.length_take] at hfull ⊢
      omega }

/-- `update_raw(data, len)`. -/
def updateRaw (st : Sha256) (data : Bytes) : Sha256 :=
  if _hd : data = [] then st else updateRaw (st.take data) (data.drop (st.takeLen data))
termination_by data.length
decreasing_by
  have := st.buf_lt
  have : 0 < data.length := List.length_pos_iff.mpr _hd
  simp only [List.length_drop, takeLen_eq]
  omega

/-- `update(data, len)`: the same loop after counting the bits. -/
def update (st : Sha256) (data : Bytes) : Sha256 :=
  updateRaw { st with bits := st.bits + BitVec.ofNat 64 data.length * 8 } data

theorem take_bits (st : Sha256) (data : Bytes) : (st.take data).bits = st.bits := by
  unfold take; dsimp only; split_ifs <;> rfl

/-- A piece that leaves the block incomplete. -/
theorem take_of_lt {st : Sha256} {data : Bytes} (h : st.buf.length + data.length < 64) :
    (st.take data).buf = st.buf ++ data ∧ (st.take data).h = st.h ∧ st.takeLen data = data.length := by
  have hlen : st.takeLen data = data.length := by rw [takeLen_eq]; omega
  unfold take
  simp only [hlen, List.take_length]
  rw [dif_neg (by simp; omega)]
  exact ⟨rfl, rfl, trivial⟩

/-- A piece that completes the block. -/
theorem take_of_ge {st : Sha256} {data : Bytes} (h : 64 ≤ st.buf.length + data.length) :
    (st.take data).buf = [] ∧
      (st.take data).h = transform st.h (st.buf ++ data.take (st.takeLen data)) ∧
      st.buf.length + (data.take (st.takeLen data)).length = 64 := by
  have := st.buf_lt
  have hfull : st.buf.length + (data.take (st.takeLen data)).length = 64 := by
    rw [List.length_take, takeLen_eq]; omega
  unfold take
  dsimp only
  rw [dif_pos (by simpa using hfull)]
  exact ⟨rfl, rfl, hfull⟩

theorem updateRaw_nil (st : Sha256) : st.updateRaw [] = st := by rw [updateRaw, dif_pos rfl]

theorem updateRaw_bits (st : Sha256) (data : Bytes) : (st.updateRaw data).bits = st.bits := by
  induction st, data using updateRaw.induct with
  | case1 st => rw [updateRaw_nil]
  | case2 st data hd ih => rw [updateRaw, dif_neg hd, ih, take_bits]

theorem length_buf_updateRaw_singleton (st : Sha256) (b : UInt8) :
    (st.updateRaw [b]).buf.length = (st.buf.length + 1) % 64 := by
  have := st.buf_lt
  have hdrop : [b].drop (st.takeLen [b]) = [] := by
    apply List.drop_eq_nil_of_le
    simp only [takeLen_eq, List.length_singleton]
    omega
  rw [updateRaw, dif_neg (by simp), hdrop, updateRaw_nil]
  by_cases hlt : st.buf.length + [b].length < 64
  · rw [(take_of_lt hlt).1]
    simp at hlt ⊢; omega
  · rw [(take_of_ge (by omega)).1]
    simp at hlt ⊢; omega

/-- `while (buf_len_ != 56) update_raw(&zero, 1)`. -/
def padZeros (st : Sha256) : Sha256 :=
  if st.buf.length ≠ 56 then padZeros (st.updateRaw [0]) else st
termination_by (120 - st.buf.length) % 64
decreasing_by
  have := st.buf_lt
  rw [length_buf_updateRaw_singleton]
  omega

/-- The bytes `lenb`: `lenb[7 - i] = (bit_len >> (8 * i)) & 0xff`. -/
def lenBytes (bitLen : BitVec 64) : Bytes :=
  (List.range 8).map fun j => ⟨((bitLen >>> (8 * (7 - j))) &&& 0xff).setWidth 8⟩

/-- The four bytes `out[i * 4 + 0 … 3]` of one word. -/
def outBytes (w : Word) : Bytes :=
  [⟨((w >>> 24) &&& 0xff).setWidth 8⟩, ⟨((w >>> 16) &&& 0xff).setWidth 8⟩,
   ⟨((w >>> 8) &&& 0xff).setWidth 8⟩, ⟨(w &&& 0xff).setWidth 8⟩]

/-- `final(out)`. The bit length is read before the padding is fed. -/
def final (st : Sha256) : Bytes :=
  let bitLen := st.bits
  let st := st.updateRaw [0x80]
  let st := st.padZeros
  let st := st.updateRaw (lenBytes bitLen)
  [st.h.a, st.h.b, st.h.c, st.h.d, st.h.e, st.h.f, st.h.g, st.h.h].flatMap outBytes

end Sha256

/-! ## Words and constants -/

theorem rotr_eq (x : Word) {n : ℕ} (hn : n < 32) : rotr x n = Fips180.rotr n x := by
  rw [Fips180.rotr, BitVec.rotateRight_def, Nat.mod_eq_of_lt hn, rotr]

theorem loadBe_eq (p : Bytes) : loadBe p = Fips180.wordOfBytes (p.take 4) := by
  have hget : ∀ i < 4, (p.take 4).getD i 0 = p.getD i 0 := by
    intro i hi
    simp [List.getD_eq_getElem?_getD, hi]
  rw [loadBe, Fips180.wordOfBytes, hget 0 (by omega), hget 1 (by omega), hget 2 (by omega),
    hget 3 (by omega)]
  apply BitVec.eq_of_getLsbD_eq
  intro j hj
  simp only [BitVec.getLsbD_or, BitVec.getLsbD_shiftLeft, BitVec.getLsbD_setWidth,
    BitVec.getLsbD_append]
  interval_cases j <;> simp

theorem outBytes_eq (w : Word) : Sha256.outBytes w = Fips180.bytesOfWord w := by
  have hbyte : ∀ k, ((w >>> k) &&& 0xff).setWidth 8 = w.extractLsb' k 8 := by
    intro k
    apply BitVec.eq_of_getLsbD_eq
    intro j hj
    simp only [BitVec.getLsbD_setWidth, BitVec.getLsbD_and, BitVec.getLsbD_ushiftRight,
      BitVec.getLsbD_extractLsb', hj, decide_true, Bool.true_and]
    have hmask : (0xff : Word).getLsbD j = true := by interval_cases j <;> rfl
    rw [hmask, Bool.and_true]
  rw [Sha256.outBytes, Fips180.bytesOfWord, hbyte 24, hbyte 16, hbyte 8, ← hbyte 0]
  simp

theorem lenBytes_eq {l : ℕ} (hl : l < 2 ^ 64) :
    Sha256.lenBytes (BitVec.ofNat 64 l) = Fips180.lengthBytes l := by
  apply List.map_congr_left
  intro j _
  apply UInt8.toNat_inj.mp
  have hpow : (2 : ℕ) ^ (8 * (7 - j)) = 256 ^ (7 - j) := by rw [pow_mul]; norm_num
  have hmask : ∀ n : ℕ, n &&& 255 = n % 256 := fun n => Nat.and_two_pow_sub_one_eq_mod n 8
  simp only [UInt8.toNat, BitVec.toNat_setWidth, BitVec.toNat_and, BitVec.toNat_ushiftRight,
    BitVec.toNat_ofNat, Nat.mod_eq_of_lt hl, Nat.shiftRight_eq_div_pow, hpow]
  rw [show BitVec.toNat (255 : BitVec 64) = 255 from rfl, hmask, Nat.mod_mod]
  exact (UInt8.toNat_ofNat' (n := l / 256 ^ (7 - j))).symm

/-- The table of the code holds the constants of the standard. -/
theorem kTable_eq : kTable = (List.range 64).map Fips180.roundConstant := by
  decide +kernel

theorem kTable_getD {t : ℕ} (ht : t < 64) : kTable.getD t 0 = Fips180.roundConstant t := by
  rw [kTable_eq]
  simp [ht]

/-- `reset` stores the initial hash value of the standard. -/
theorem init_h : Sha256.init.h = Fips180.initialHash := by
  decide +kernel

/-! ## The compression function -/

/-- After `n` iterations of the schedule loop the array holds `W_0 … W_{15+n}`. -/
theorem scheduleWords_prefix (block : Bytes) :
    ∀ n ≤ 48, ∀ w, w = (List.range' 16 n).foldl scheduleBody
        ((List.range 16).map fun i => loadBe (block.drop (i * 4))) →
      w.length = 16 + n ∧ ∀ t < 16 + n, w.getD t 0 = Fips180.schedule block t := by
  intro n
  induction n with
  | zero =>
    rintro - w rfl
    refine ⟨by simp, fun t ht => ?_⟩
    rw [Fips180.schedule_lt block ht, Fips180.blockWord, Nat.mul_comm, ← loadBe_eq]
    simp [ht]
  | succ n ih =>
    rintro hn w rfl
    obtain ⟨hlen, hget⟩ := ih (by omega) _ rfl
    rw [List.range'_concat, List.foldl_append, Nat.one_mul, List.foldl_cons, List.foldl_nil]
    set w := (List.range' 16 n).foldl scheduleBody
      ((List.range 16).map fun i => loadBe (block.drop (i * 4)))
    refine ⟨by simp [scheduleBody, hlen]; omega, fun t ht => ?_⟩
    by_cases hlt : t < 16 + n
    · rw [scheduleBody, List.getD_append _ _ _ _ (by omega)]
      exact hget t hlt
    · obtain rfl : t = 16 + n := by omega
      rw [scheduleBody, List.getD_append_right _ _ _ _ (by omega), hlen,
        Fips180.schedule_ge block (by omega), hget _ (by omega), hget _ (by omega),
        hget _ (by omega), hget _ (by omega)]
      simp only [Nat.sub_self, List.getD_cons_zero, rotr_eq _ (show 7 < 32 by omega),
        rotr_eq _ (show 18 < 32 by omega), rotr_eq _ (show 17 < 32 by omega),
        rotr_eq _ (show 19 < 32 by omega), Fips180.smallSigma0, Fips180.smallSigma1, Fips180.shr]
      abel

/-- **Message schedule.** -/
theorem scheduleWords_getD (block : Bytes) {t : ℕ} (ht : t < 64) :
    (scheduleWords block).getD t 0 = Fips180.schedule block t :=
  ( scheduleWords_prefix block 48 le_rfl _ rfl).2 t (by omega)

theorem roundBody_eq (block : Bytes) (v : Words) {t : ℕ} (ht : t < 64) :
    roundBody (scheduleWords block) v t = Fips180.round block v t := by
  simp only [roundBody, Fips180.round, scheduleWords_getD block ht, kTable_getD ht,
    rotr_eq _ (show 6 < 32 by omega), rotr_eq _ (show 11 < 32 by omega),
    rotr_eq _ (show 25 < 32 by omega), rotr_eq _ (show 2 < 32 by omega),
    rotr_eq _ (show 13 < 32 by omega), rotr_eq _ (show 22 < 32 by omega),
    Fips180.bigSigma0, Fips180.bigSigma1, Fips180.ch, Fips180.maj]

/-- **Compression.** `transform` is the compression function of the standard. -/
theorem transform_eq (h : Words) (block : Bytes) : transform h block = Fips180.compress h block := by
  have hrounds : (List.range 64).foldl (roundBody (scheduleWords block)) h =
      (List.range 64).foldl (Fips180.round block) h :=
    List.foldl_ext _ _ _ fun v t ht => roundBody_eq block v (List.mem_range.mp ht)
  simp only [transform, Fips180.compress, hrounds, add_comm]

/-! ## Streaming -/

/-- `m` has been fed to the object: whole blocks are in the chaining value, the
    rest is pending. -/
def Sha256.Fed (st : Sha256) (m : Bytes) : Prop :=
  Absorbed 64 Fips180.compress Fips180.initialHash m st.h st.buf

namespace Sha256

theorem fed_init : init.Fed [] := by
  unfold Fed
  rw [init_h]
  exact Absorbed.nil (by norm_num) _

/-- One iteration of the copy loop. -/
theorem Fed.take {st : Sha256} {m : Bytes} (h : st.Fed m) (data : Bytes) :
    (st.take data).Fed (m ++ data.take (st.takeLen data)) := by
  unfold Fed
  by_cases hlt : st.buf.length + data.length < 64
  · obtain ⟨hbuf, hh, hlen⟩ := take_of_lt hlt
    rw [hbuf, hh, hlen, List.take_length]
    exact Absorbed.append h hlt
  · obtain ⟨hbuf, hh, hfull⟩ := @take_of_ge st data (by omega)
    rw [hbuf, hh, transform_eq]
    exact Absorbed.block h hfull

/-- The copy loop consumes the whole piece. -/
theorem Fed.updateRaw {st : Sha256} {m : Bytes} (h : st.Fed m) (data : Bytes) :
    (st.updateRaw data).Fed (m ++ data) := by
  induction st, data using updateRaw.induct generalizing m with
  | case1 st => rw [updateRaw_nil, List.append_nil]; exact h
  | case2 st data hd ih =>
    have hstep := ih (h.take data)
    rw [List.append_assoc, List.take_append_drop] at hstep
    rw [Sha256.updateRaw, dif_neg hd]
    exact hstep

theorem Fed.update {st : Sha256} {m : Bytes} (h : st.Fed m) (data : Bytes) :
    (st.update data).Fed (m ++ data) :=
  @Fed.updateRaw { st with bits := st.bits + BitVec.ofNat 64 data.length * 8 } m h data

/-- The pieces given to `update` are in the object, and `bits_` is their length
    in bits modulo `2^64`. -/
theorem fed_updates (pieces : List Bytes) :
    (pieces.foldl update init).Fed pieces.flatten ∧
      (pieces.foldl update init).bits = BitVec.ofNat 64 (8 * pieces.flatten.length) := by
  induction pieces using List.reverseRecOn with
  | nil => exact ⟨fed_init, rfl⟩
  | append_singleton pieces piece ih =>
    obtain ⟨hfed, hbits⟩ := ih
    rw [List.foldl_append, List.foldl_cons, List.foldl_nil, List.flatten_append,
      List.flatten_singleton]
    refine ⟨hfed.update piece, ?_⟩
    rw [Sha256.update, updateRaw_bits, hbits, List.length_append]
    apply BitVec.eq_of_toNat_eq
    simp
    omega

/-- The padding loop feeds zeros until 56 bytes are pending. -/
theorem padZeros_eq (st : Sha256) :
    st.padZeros = (fun s => s.updateRaw [0])^[(120 - st.buf.length) % 64] st ∧
      st.padZeros.buf.length = 56 := by
  induction st using padZeros.induct with
  | case1 st hne ih =>
    have := st.buf_lt
    rw [length_buf_updateRaw_singleton] at ih
    rw [padZeros, if_pos hne]
    refine ⟨?_, ih.2⟩
    rw [ih.1, show (120 - st.buf.length) % 64 = (120 - (st.buf.length + 1) % 64) % 64 + 1 by omega,
      Function.iterate_succ_apply]
  | case2 st heq =>
    have heq : st.buf.length = 56 := by simpa using heq
    rw [padZeros, if_neg (by simpa using heq), heq]
    exact ⟨rfl, rfl⟩

theorem Fed.zeros {st : Sha256} {m : Bytes} (h : st.Fed m) (k : ℕ) :
    ((fun s => s.updateRaw [0])^[k] st).Fed (m ++ List.replicate k 0) := by
  induction k with
  | zero => simpa using h
  | succ k ih =>
    rw [Function.iterate_succ_apply', List.replicate_succ', ← List.append_assoc]
    exact ih.updateRaw [0]

/-- Padding the bytes fed so far as the standard does ends on a block boundary
    with the digest in the chaining value. -/
theorem final_eq {st : Sha256} {m : Bytes} (h : st.Fed m) (hm : m.length < 2 ^ 61)
    (hbits : st.bits = BitVec.ofNat 64 (8 * m.length)) : st.final = Fips180.sha256 m := by
  have hone := h.updateRaw [0x80]
  obtain ⟨hpad, h56⟩ := padZeros_eq (st.updateRaw [0x80])
  have hzeros := hone.zeros ((120 - (st.updateRaw [0x80]).buf.length) % 64)
  rw [← hpad, length_buf_updateRaw_singleton, h.pending_length,
    show (120 - (m.length % 64 + 1) % 64) % 64 = (119 - m.length % 64) % 64 by omega] at hzeros
  have hlast := hzeros.updateRaw (lenBytes st.bits)
  rw [hbits, lenBytes_eq (by omega)] at hlast
  have hbuf : ((st.updateRaw [0x80]).padZeros.updateRaw (Fips180.lengthBytes (8 * m.length))).buf
      = [] := by
    apply List.length_eq_zero_iff.mp
    rw [hlast.pending_length]
    exact Fips180.length_pad_mod m
  have hdigest := hlast
  rw [Fed, hbuf] at hdigest
  simp only [final, hbits, lenBytes_eq (show 8 * m.length < 2 ^ 64 by omega), hdigest.finish]
  simp only [Fips180.sha256, Fips180.bytesOfWords, List.flatMap_cons, List.flatMap_nil,
    outBytes_eq]
  rfl

/-- **`Sha256` is FIPS 180-4.** Whatever the pieces a message shorter than
    `2^61` bytes is cut into, `final` returns the SHA-256 digest of the message;
    and from every fill level the padding loop ends, after at most 63 zeros. -/
theorem final_eq_sha256 (pieces : List Bytes) (hlen : pieces.flatten.length < 2 ^ 61) :
    (pieces.foldl update init).final = Fips180.sha256 pieces.flatten ∧
      ∀ st : Sha256, ∃ k < 64, st.padZeros = (fun s => s.updateRaw [0])^[k] st ∧
        st.padZeros.buf.length = 56 := by
  obtain ⟨hfed, hbits⟩ := fed_updates pieces
  exact ⟨final_eq hfed hlen hbits, fun st => ⟨_, Nat.mod_lt _ (by norm_num), padZeros_eq st⟩⟩

/-- The message `abc` in three pieces, one of them empty. -/
theorem final_eq_sha256_abc :
    ([[0x61], [], [0x62, 0x63]].foldl update init).final = Fips180.sha256 [0x61, 0x62, 0x63] :=
  (final_eq_sha256 [[0x61], [], [0x62, 0x63]] (by decide)).1

end Sha256

end Forge
