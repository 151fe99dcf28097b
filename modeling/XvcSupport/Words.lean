import Mathlib

/-!
# Octets, words and raw memory

Fixed-width words as `BitVec`, little-endian packing of octets, the slice
assignment `data(hi downto lo) := v` of a hardware vector, and raw memory as a
function from addresses to octets with `memcpy` as its only write.
-/

namespace XvcSupport

abbrev Byte := BitVec 8

/-- `data(lo + k - 1 downto lo) := v`. -/
def putSlice {W k : ℕ} (data : BitVec W) (lo : ℕ) (v : BitVec k) : BitVec W :=
  (data &&& ~~~((BitVec.allOnes k).setWidth W <<< lo)) ||| (v.setWidth W <<< lo)

theorem getLsbD_putSlice {W k : ℕ} (data : BitVec W) (lo : ℕ) (v : BitVec k) {i : ℕ}
    (hi : i < W) :
    (putSlice data lo v).getLsbD i =
      if lo ≤ i ∧ i < lo + k then v.getLsbD (i - lo) else data.getLsbD i := by
  simp only [putSlice, BitVec.getLsbD_or, BitVec.getLsbD_and, BitVec.getLsbD_not,
    BitVec.getLsbD_shiftLeft, BitVec.getLsbD_setWidth, BitVec.getLsbD_allOnes, hi]
  by_cases h1 : lo ≤ i
  · have h2 : i - lo < W := by omega
    by_cases h3 : i < lo + k
    · have h4 : i - lo < k := by omega
      simp [h1, h2, h3, h4, Nat.not_lt.mpr h1]
    · have h4 : ¬ i - lo < k := by omega
      simp [h1, h3, h4, BitVec.getLsbD_of_ge v (i - lo) (by omega)]
  · simp [h1, Nat.lt_of_not_le h1]

theorem extractLsb'_putSlice_of_disjoint {W k : ℕ} (data : BitVec W) (lo : ℕ) (v : BitVec k)
    {lo' k' : ℕ} (hW : lo' + k' ≤ W) (h : lo' + k' ≤ lo ∨ lo + k ≤ lo') :
    (putSlice data lo v).extractLsb' lo' k' = data.extractLsb' lo' k' := by
  apply BitVec.eq_of_getLsbD_eq
  intro i hi
  rw [BitVec.getLsbD_extractLsb', BitVec.getLsbD_extractLsb', getLsbD_putSlice _ _ _ (by omega)]
  have hn : ¬ (lo ≤ lo' + i ∧ lo' + i < lo + k) := by omega
  simp [hn]

theorem extractLsb'_putSlice_self {W k : ℕ} (data : BitVec W) (lo : ℕ) (v : BitVec k)
    (hW : lo + k ≤ W) : (putSlice data lo v).extractLsb' lo k = v := by
  apply BitVec.eq_of_getLsbD_eq
  intro i hi
  rw [BitVec.getLsbD_extractLsb', getLsbD_putSlice _ _ _ (by omega)]
  simp [hi]

/-- Octets read as one word, first octet least significant; missing octets read
as zero and excess ones are dropped. -/
def packLE (W : ℕ) : List Byte → BitVec W
  | [] => 0
  | b :: bs => b.setWidth W ||| (packLE W bs <<< 8)

theorem getLsbD_packLE {W : ℕ} (bs : List Byte) {i : ℕ} (hi : i < W) :
    (packLE W bs).getLsbD i = (bs.getD (i / 8) 0).getLsbD (i % 8) := by
  induction bs generalizing i with
  | nil => simp [packLE]
  | cons b bs ih =>
    simp only [packLE, BitVec.getLsbD_or, BitVec.getLsbD_setWidth, BitVec.getLsbD_shiftLeft, hi]
    by_cases h8 : i < 8
    · simp [h8, Nat.div_eq_of_lt h8, Nat.mod_eq_of_lt h8]
    · have hq : i / 8 = (i - 8) / 8 + 1 := by omega
      have hm : i % 8 = (i - 8) % 8 := by omega
      have hb : b.getLsbD i = false := BitVec.getLsbD_of_ge b i (by omega)
      have hrec := ih (i := i - 8) (by omega)
      simp [h8, hb, hq, hm, hrec]

/-- The `n` low octets of a word, least significant first. -/
def unpackLE {W : ℕ} (n : ℕ) (w : BitVec W) : List Byte :=
  (List.range n).map fun k => w.extractLsb' (8 * k) 8

@[simp] theorem unpackLE_length {W : ℕ} (n : ℕ) (w : BitVec W) : (unpackLE n w).length = n := by
  simp [unpackLE]

/-- Octets cut into words of `wsz` octets; a last, partial word reads as zero where
octets are missing. -/
def wordsOf (wsz : ℕ) (bs : List Byte) : List (BitVec (8 * wsz)) :=
  (List.range ((bs.length + wsz - 1) / wsz)).map fun k =>
    packLE (8 * wsz) ((bs.drop (k * wsz)).take wsz)

def octetsOf (wsz : ℕ) (ws : List (BitVec (8 * wsz))) : List Byte := ws.flatMap (unpackLE wsz)

@[simp] theorem wordsOf_length (wsz : ℕ) (bs : List Byte) :
    (wordsOf wsz bs).length = (bs.length + wsz - 1) / wsz := by
  simp [wordsOf]

theorem getLsbD_getD_wordsOf {wsz : ℕ} (bs : List Byte) {k i : ℕ} (hk : k * wsz < bs.length)
    (hi : i < 8 * wsz) : ((wordsOf wsz bs).getD k 0).getLsbD i =
      (bs.getD (k * wsz + i / 8) 0).getLsbD (i % 8) := by
  have hw : 0 < wsz := by omega
  have hq : i / 8 < wsz := by omega
  have hlt : k < (bs.length + wsz - 1) / wsz := by
    rw [Nat.lt_div_iff_mul_lt hw]
    omega
  rw [List.getD_eq_getElem _ _ (by simpa using hlt)]
  simp only [wordsOf, List.getElem_map, List.getElem_range]
  rw [getLsbD_packLE _ hi]
  simp [List.getD, hq]

/-- Raw memory behind a pointer. -/
abbrev Mem := ℕ → Byte

/-- `memcpy(dst + d, src + s, n)`. -/
def memcpy (dst : Mem) (d : ℕ) (src : Mem) (s n : ℕ) : Mem := fun i =>
  if d ≤ i ∧ i < d + n then src (i - d + s) else dst i

theorem memcpy_inside {dst src : Mem} {d s n i : ℕ} (h : i < n) :
    memcpy dst d src s n (d + i) = src (i + s) := by
  simp [memcpy, h]

theorem memcpy_outside {dst src : Mem} {d s n i : ℕ} (h : i < d ∨ d + n ≤ i) :
    memcpy dst d src s n i = dst i := by
  unfold memcpy
  rw [if_neg (by omega)]

/-- The memory holding the octets of a list from address zero on. -/
def memOf (bs : List Byte) : Mem := fun i => bs.getD i 0

/-- The `n` octets from address `p` on. -/
def slice (m : Mem) (p n : ℕ) : List Byte := (List.range n).map fun i => m (p + i)

@[simp] theorem slice_length (m : Mem) (p n : ℕ) : (slice m p n).length = n := by simp [slice]

theorem getD_slice (m : Mem) (p : ℕ) {n i : ℕ} (h : i < n) :
    (slice m p n).getD i 0 = m (p + i) := by
  rw [List.getD_eq_getElem _ _ (by simpa using h)]
  simp [slice]

/-- Bit `i` of a bit vector stored in memory, first bit least significant. -/
def memBit (m : Mem) (i : ℕ) : Bool := (m (i / 8)).getLsbD (i % 8)

end XvcSupport
