import Mathlib

namespace XvcSupport.ShiftRegister

variable {L : ℕ}

/-- Shift the bits up to the end index `last` by one, and put `b` there; higher bits stay. -/
def shiftLow (reg : BitVec L) (last : ℕ) (b : Bool) : BitVec L :=
  BitVec.ofFnLE fun i : Fin L =>
    if i.val < last then reg.getLsbD (i.val + 1)
    else if i.val = last then b
    else reg.getLsbD i.val

theorem getLsbD_shiftLow (reg : BitVec L) {last i : ℕ} (b : Bool) (hi : i < L) :
    (shiftLow reg last b).getLsbD i =
      if i < last then reg.getLsbD (i + 1) else if i = last then b else reg.getLsbD i := by
  simp [shiftLow, hi]

def bitsOf (v : BitVec L) : List Bool := (List.range L).map v.getLsbD

@[simp] theorem bitsOf_length (v : BitVec L) : (bitsOf v).length = L := by simp [bitsOf]

theorem bitsOf_getD (v : BitVec L) {i : ℕ} (hi : i < L) :
    (bitsOf v).getD i false = v.getLsbD i := by
  rw [List.getD_eq_getElem _ _ (by simpa using hi)]
  simp [bitsOf]

/-- The low `k` bits of the register are those of the list from position `n` on. -/
structure Window (k : ℕ) (bits : List Bool) (n : ℕ) (reg : BitVec L) : Prop where
  length : bits.length = n + k
  bit : ∀ j < k, reg.getLsbD j = bits.getD (n + j) false

variable {k n : ℕ} {bits : List Bool} {reg : BitVec L}

theorem Window.load (v : BitVec L) : Window L (bitsOf v) 0 v where
  length := by simp
  bit j hj := by rw [Nat.zero_add, bitsOf_getD v hj]

theorem Window.shift (h : Window k bits n reg) (hk : 0 < k) (hL : k ≤ L) (b : Bool) :
    Window k (bits ++ [b]) (n + 1) (shiftLow reg (k - 1) b) where
  length := by
    have := h.length
    simp
    omega
  bit j hj := by
    have hlen := h.length
    rw [getLsbD_shiftLow _ _ (by omega)]
    split_ifs with h1 h2
    · rw [h.bit (j + 1) (by omega), List.getD_append _ _ _ _ (by omega)]
      congr 1
      omega
    · rw [List.getD_append_right _ _ _ _ (by omega), show n + 1 + j - bits.length = 0 by omega]
      rfl
    · omega

theorem Window.out (h : Window k bits n reg) (hk : 0 < k) :
    reg.getLsbD 0 = bits.getD n false := h.bit 0 hk

theorem Window.bitsOf_eq (h : Window L bits n reg) : bitsOf reg = bits.drop n := by
  have hlen := h.length
  apply List.ext_getElem (by simp; omega)
  intro i hi _
  have hiL : i < L := by simpa using hi
  have hbit := h.bit i hiL
  rw [List.getD_eq_getElem _ _ (by omega)] at hbit
  simpa [bitsOf] using hbit

/-- The low `k` bits held `captured` at first; since then `ins` were shifted in, and `outs` were
seen at bit 0 before each shift. -/
structure Transfer (k : ℕ) (captured ins outs : List Bool) (reg : BitVec L) : Prop where
  window : Window k (captured ++ ins) ins.length reg
  outs_eq : outs = (captured ++ ins).take ins.length

variable {captured ins outs : List Bool}

theorem Transfer.load (h : Window k captured 0 reg) : Transfer k captured [] [] reg where
  window := by simpa using h
  outs_eq := by simp

theorem Transfer.shift (h : Transfer k captured ins outs reg) (hk : 0 < k) (hL : k ≤ L)
    (b : Bool) :
    Transfer k captured (ins ++ [b]) (outs ++ [reg.getLsbD 0]) (shiftLow reg (k - 1) b) where
  window := by
    have hw := h.window.shift hk hL b
    rwa [List.append_assoc, show ins.length + 1 = (ins ++ [b]).length by simp] at hw
  outs_eq := by
    have hlen := h.window.length
    have hlast : (ins ++ [b]).length = ins.length + 1 := by simp
    rw [hlast, ← List.append_assoc, List.take_append_of_le_length (by omega), List.take_add_one,
      ← h.outs_eq, h.window.out hk, List.getD_eq_getElem _ _ (by omega),
      List.getElem?_eq_getElem (by omega)]
    rfl

end XvcSupport.ShiftRegister
