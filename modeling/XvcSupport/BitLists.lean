import Mathlib

namespace XvcSupport.BitList

/-- The sum of `b_i * 2 ^ i`. -/
def value (bits : List Bool) : ℕ := Nat.ofDigits 2 (bits.map Bool.toNat)

@[simp] theorem value_nil : value [] = 0 := rfl

@[simp] theorem value_cons (b : Bool) (bits : List Bool) :
    value (b :: bits) = b.toNat + 2 * value bits := by
  simp [value, Nat.ofDigits_cons]

theorem value_append (xs ys : List Bool) :
    value (xs ++ ys) = value xs + 2 ^ xs.length * value ys := by
  simp [value, Nat.ofDigits_append]

theorem value_lt (bits : List Bool) : value bits < 2 ^ bits.length := by
  induction bits with
  | nil => simp
  | cons b bits ih =>
    have hb : b.toNat ≤ 1 := by cases b <;> simp
    rw [value_cons, List.length_cons, pow_succ]
    omega

theorem value_drop (bits : List Bool) (n : ℕ) (hn : n ≤ bits.length) :
    value (bits.drop n) = value bits / 2 ^ n := by
  have hsplit : value bits = value (bits.take n) + 2 ^ n * value (bits.drop n) := by
    conv_lhs => rw [← List.take_append_drop n bits]
    rw [value_append, List.length_take_of_le hn]
  have hlt := value_lt (bits.take n)
  rw [List.length_take_of_le hn] at hlt
  rw [hsplit, Nat.add_mul_div_left _ _ (by positivity), Nat.div_eq_of_lt hlt, Nat.zero_add]

theorem testBit_value (bits : List Bool) (i : ℕ) :
    (value bits).testBit i = bits.getD i false := by
  induction bits generalizing i with
  | nil => simp
  | cons b bits ih =>
    have hbit : value (b :: bits) = Nat.bit b (value bits) := by
      rw [value_cons, Nat.bit_val]
      cases b
      · simp
      · simp [Nat.add_comm]
    rw [hbit]
    cases i with
    | zero => simp
    | succ i => rw [Nat.testBit_bit_succ, ih]; rfl

theorem getD_append_singleton (bits : List Bool) (b : Bool) (i : ℕ) :
    (bits ++ [b]).getD i false = if i = bits.length then b else bits.getD i false := by
  rcases Nat.lt_trichotomy i bits.length with h | h | h
  · rw [List.getD_append _ _ _ _ h, if_neg (by omega)]
  · rw [if_pos h, List.getD_append_right _ _ _ _ (by omega), h, Nat.sub_self]
    rfl
  · rw [if_neg (by omega), List.getD_eq_default _ _ (by simp; omega),
      List.getD_eq_default _ _ (by omega)]

theorem toNat_eq_value_iff {w : ℕ} (v : BitVec w) (bits : List Bool) (h : bits.length ≤ w) :
    v.toNat = value bits ↔ ∀ i < w, v.getLsbD i = bits.getD i false := by
  constructor
  · intro hv i _
    rw [← testBit_value, ← hv]
    rfl
  · intro hv
    apply Nat.eq_of_testBit_eq
    intro i
    rw [testBit_value]
    by_cases hi : i < w
    · exact hv i hi
    · rw [List.getD_eq_default _ _ (by omega)]
      exact BitVec.getLsbD_of_ge v i (by omega)

/-- The `j`-th run of `k` bits. -/
def chunk (k : ℕ) (bits : List Bool) (j : ℕ) : List Bool := (bits.drop (k * j)).take k

theorem chunk_length_le (k : ℕ) (bits : List Bool) (j : ℕ) : (chunk k bits j).length ≤ k := by
  simp [chunk]

theorem chunk_getD {k : ℕ} (bits : List Bool) (j : ℕ) {i : ℕ} (hi : i < k) :
    (chunk k bits j).getD i false = bits.getD (k * j + i) false := by
  simp [chunk, List.getD_eq_getElem?_getD, List.getElem?_take_of_lt hi]

theorem chunk_append_of_lt {k : ℕ} {bits more : List Bool} {j : ℕ}
    (h : k * j + k ≤ bits.length) : chunk k (bits ++ more) j = chunk k bits j := by
  unfold chunk
  rw [List.drop_append_of_le_length (by omega), List.take_append_of_le_length (by simp; omega)]

theorem chunk_last_length {k : ℕ} (hk : 0 < k) (bits : List Bool) :
    (chunk k bits (bits.length / k)).length = bits.length % k := by
  have hdiv := Nat.div_add_mod bits.length k
  rw [chunk, List.length_take, List.length_drop]
  have hlt := Nat.mod_lt bits.length hk
  omega

theorem chunk_append_singleton {k : ℕ} (hk : 0 < k) (bits : List Bool) (b : Bool) :
    chunk k (bits ++ [b]) (bits.length / k) = chunk k bits (bits.length / k) ++ [b] := by
  have hdiv := Nat.div_add_mod bits.length k
  have hlt := Nat.mod_lt bits.length hk
  rw [chunk, chunk, List.drop_append_of_le_length (by omega),
    List.take_of_length_le (by simp; omega), List.take_of_length_le (by simp; omega)]

theorem chunk_of_le {k : ℕ} {bits : List Bool} {j : ℕ} (h : bits.length ≤ k * j) :
    chunk k bits j = [] := by
  rw [chunk, List.drop_eq_nil_of_le h, List.take_nil]

theorem value_eq_ofDigits (k m : ℕ) (bits : List Bool) (h : bits.length ≤ k * m) :
    value bits = Nat.ofDigits (2 ^ k) ((List.range m).map fun j => value (chunk k bits j)) := by
  induction m generalizing bits with
  | zero =>
    obtain rfl : bits = [] := by simpa using h
    rfl
  | succ m ih =>
    have hsplit : value bits = value (bits.take k) + 2 ^ k * value (bits.drop k) := by
      by_cases hk : k ≤ bits.length
      · conv_lhs => rw [← List.take_append_drop k bits]
        rw [value_append, List.length_take_of_le hk]
      · rw [List.take_of_length_le (by omega), List.drop_eq_nil_of_le (by omega)]
        simp
    have hrest : ∀ j, chunk k bits (j + 1) = chunk k (bits.drop k) j := by
      intro j
      rw [chunk, chunk, List.drop_drop, Nat.mul_succ, Nat.add_comm]
    have hlen : (bits.drop k).length ≤ k * m := by
      rw [List.length_drop]
      rw [Nat.mul_succ] at h
      omega
    rw [List.range_succ_eq_map, List.map_cons, List.map_map, Nat.ofDigits_cons, hsplit,
      ih (bits.drop k) hlen]
    simp only [Function.comp_def, Nat.succ_eq_add_one, hrest]
    rfl

end XvcSupport.BitList
