import Forge.Basic
import Forge.Lib.BlockFold

/-!
# FIPS 180-4, SHA-256 on byte strings

The specification the `Sha256` class of `worker.cpp` is compared with:
functions and constants (§4.1.2, §4.2.2), padding (§5.1.1), parsing into
512-bit blocks (§5.2.1), initial hash value (§5.3.3) and the computation
(§6.2). Messages are byte strings, so the bit length is a multiple of 8.

The constants are not copied from a table: `roundConstant t` is the fraction of
the cube root of the `t`-th prime and `initialWord j` that of the square root
of the `j`-th one, as the standard defines them.
-/

namespace Forge.Fips180

abbrev Word := BitVec 32

/-! ## Functions (§4.1.2) -/

def rotr (n : ℕ) (x : Word) : Word := x.rotateRight n
def shr (n : ℕ) (x : Word) : Word := x >>> n
def ch (x y z : Word) : Word := (x &&& y) ^^^ (~~~x &&& z)
def maj (x y z : Word) : Word := (x &&& y) ^^^ (x &&& z) ^^^ (y &&& z)
def bigSigma0 (x : Word) : Word := rotr 2 x ^^^ rotr 13 x ^^^ rotr 22 x
def bigSigma1 (x : Word) : Word := rotr 6 x ^^^ rotr 11 x ^^^ rotr 25 x
def smallSigma0 (x : Word) : Word := rotr 7 x ^^^ rotr 18 x ^^^ shr 3 x
def smallSigma1 (x : Word) : Word := rotr 17 x ^^^ rotr 19 x ^^^ shr 10 x

/-! ## Constants (§4.2.2 and §5.3.3) -/

/-- The first sixty-four prime numbers. -/
def primes : List ℕ := (List.range 312).filter Nat.Prime

/-- The largest `c` with `c ^ 3 ≤ n`, found bit by bit from bit `b - 1` down,
    where `c` holds the bits above. -/
def cubeRootFrom (n : ℕ) : ℕ → ℕ → ℕ
  | 0, c => c
  | b + 1, c => cubeRootFrom n b (if (c + 2 ^ b) ^ 3 ≤ n then c + 2 ^ b else c)

/-- `K_t`: the first thirty-two bits of the fractional part of the cube root of
    the `t`-th prime. The cube root of `p · 2⁹⁶` is below `2³⁵`. -/
def roundConstant (t : ℕ) : Word :=
  BitVec.ofNat 32 (cubeRootFrom (primes.getD t 0 * 2 ^ 96) 35 0)

/-- `H_j⁽⁰⁾`: the first thirty-two bits of the fractional part of the square
    root of the `j`-th prime. -/
def initialWord (j : ℕ) : Word := BitVec.ofNat 32 (Nat.sqrt (primes.getD j 0 * 2 ^ 64))

/-! ## Preprocessing (§5) -/

/-- The 64-bit big-endian representation of `l`. -/
def lengthBytes (l : ℕ) : Bytes := (List.range 8).map fun j => UInt8.ofNat (l / 256 ^ (7 - j))

/-- §5.1.1: the bit `1` followed by zeros, the least number of them that leaves
    eight bytes to a multiple of 64, then the bit length. -/
def pad (m : Bytes) : Bytes :=
  m ++ [0x80] ++ List.replicate ((119 - m.length % 64) % 64) 0 ++ lengthBytes (8 * m.length)

/-- Four bytes as a word, most significant byte first. -/
def wordOfBytes (b : Bytes) : Word :=
  (b.getD 0 0).toBitVec ++ (b.getD 1 0).toBitVec ++ (b.getD 2 0).toBitVec ++ (b.getD 3 0).toBitVec

/-- Word `M_j` of a 64-byte block. -/
def blockWord (block : Bytes) (j : ℕ) : Word := wordOfBytes ((block.drop (4 * j)).take 4)

/-! ## Hash computation (§6.2.2) -/

/-- Eight words: a hash value or the working variables. -/
structure Words where
  a : Word
  b : Word
  c : Word
  d : Word
  e : Word
  f : Word
  g : Word
  h : Word
  deriving DecidableEq

/-- `W_t`. -/
def schedule (block : Bytes) (t : ℕ) : Word :=
  if t < 16 then blockWord block t
  else smallSigma1 (schedule block (t - 2)) + schedule block (t - 7) +
    smallSigma0 (schedule block (t - 15)) + schedule block (t - 16)

/-- Step 3 for one `t`. -/
def round (block : Bytes) (v : Words) (t : ℕ) : Words :=
  let t1 := v.h + bigSigma1 v.e + ch v.e v.f v.g + roundConstant t + schedule block t
  let t2 := bigSigma0 v.a + maj v.a v.b v.c
  ⟨t1 + t2, v.a, v.b, v.c, v.d + t1, v.e, v.f, v.g⟩

/-- Steps 1–4 on one block: the next hash value. -/
def compress (hash : Words) (block : Bytes) : Words :=
  let v := (List.range 64).foldl (round block) hash
  ⟨v.a + hash.a, v.b + hash.b, v.c + hash.c, v.d + hash.d,
   v.e + hash.e, v.f + hash.f, v.g + hash.g, v.h + hash.h⟩

def initialHash : Words :=
  ⟨initialWord 0, initialWord 1, initialWord 2, initialWord 3,
   initialWord 4, initialWord 5, initialWord 6, initialWord 7⟩

/-- The four bytes of a word, most significant first. -/
def bytesOfWord (w : Word) : Bytes :=
  [⟨w.extractLsb' 24 8⟩, ⟨w.extractLsb' 16 8⟩, ⟨w.extractLsb' 8 8⟩, ⟨w.extractLsb' 0 8⟩]

def bytesOfWords (v : Words) : Bytes :=
  [v.a, v.b, v.c, v.d, v.e, v.f, v.g, v.h].flatMap bytesOfWord

/-- SHA-256 of the byte string `m`. -/
def sha256 (m : Bytes) : Bytes :=
  bytesOfWords (BlockFold.foldBlocks 64 compress initialHash (pad m))

@[simp] theorem length_sha256 (m : Bytes) : (sha256 m).length = 32 := rfl

theorem schedule_lt (block : Bytes) {t : ℕ} (ht : t < 16) :
    schedule block t = blockWord block t := by
  rw [schedule, if_pos ht]

theorem schedule_ge (block : Bytes) {t : ℕ} (ht : 16 ≤ t) :
    schedule block t = smallSigma1 (schedule block (t - 2)) + schedule block (t - 7) +
      smallSigma0 (schedule block (t - 15)) + schedule block (t - 16) := by
  rw [schedule, if_neg (by omega)]

@[simp] theorem length_lengthBytes (l : ℕ) : (lengthBytes l).length = 8 := by simp [lengthBytes]

/-- The padded message is a whole number of blocks. -/
theorem length_pad_mod (m : Bytes) : (pad m).length % 64 = 0 := by
  simp only [pad, List.length_append, List.length_singleton, List.length_replicate,
    length_lengthBytes]
  omega

end Forge.Fips180
