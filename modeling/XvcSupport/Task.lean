import XvcSupport.Core
import XvcSupport.Positions

namespace XvcSupport.AxisToJtagCore

open AxisToJtag JtagSerDesCore

/-- A shift request as the core sees it: the length field, the words after the header and the
edges of TCK before. -/
structure Task (W : ℕ) where
  len : BitVec 20
  payload : List (BitVec W)
  hist : List Edge

namespace Task

variable {W : ℕ} (t : Task W)

def total : ℕ := t.len.toNat + 1

def pairCount : ℕ := t.payload.length / 2

def count : ℕ := min (wordCount W t.total) t.pairCount

def job : Job W where
  word j := (t.payload.getD (2 * j) 0, t.payload.getD (2 * j + 1) 0)
  bits := min t.total (W * t.pairCount)
  hist := t.hist

/-- Word `j` of the answer. -/
def tdoWord (tap : Tap) (j : ℕ) : BitVec W :=
  AxisToJtag.tdoWord W t.job.bits (t.job.sample tap) j

/-- Pair `c` is marked as the last one when it is handed to the serializer. -/
def Last (c : ℕ) : Prop := t.total ≤ (c + 1) * W ∨ t.payload.length = 2 * c + 2

instance (c : ℕ) : Decidable (t.Last c) := inferInstanceAs (Decidable (_ ∨ _))

/-- The frame ends with a TMS word where a pair is due, after at least one pair. -/
def Aborts : Prop := 1 ≤ t.count ∧ t.payload.length = 2 * t.count + 1 ∧ t.count * W < t.total

variable {t}

theorem lt_wordCount {W n c : ℕ} (hW : 0 < W) : c < wordCount W n ↔ c * W < n := by
  rw [wordCount, ← Nat.succ_le_iff, Nat.le_div_iff_mul_le hW, Nat.succ_mul]
  omega

theorem lt_count (hW : 0 < W) {c : ℕ} :
    c < t.count ↔ c * W < t.total ∧ 2 * c + 2 ≤ t.payload.length := by
  rw [count, lt_min_iff, lt_wordCount hW, pairCount]
  constructor <;> rintro ⟨h1, h2⟩ <;> exact ⟨h1, by omega⟩

theorem two_count_le : 2 * t.count ≤ t.payload.length := by
  have := Nat.min_le_right (wordCount W t.total) t.pairCount
  unfold count pairCount at *
  omega

theorem total_pos : 0 < t.total := Nat.succ_pos _

theorem count_pos (hW : 0 < W) (h2 : 2 ≤ t.payload.length) : 0 < t.count := by
  rw [lt_count hW]
  exact ⟨by rw [Nat.zero_mul]; exact t.total_pos, by omega⟩

theorem numBits_eq (hW : 0 < W) {c : ℕ} (hc : c < t.count) :
    t.job.numBits c = min W (t.total - c * W) := by
  obtain ⟨h1, h2⟩ := (lt_count hW).mp hc
  have hp : c + 1 ≤ t.pairCount := by unfold pairCount; omega
  have hm : (c + 1) * W ≤ W * t.pairCount := by
    rw [Nat.mul_comm W]
    exact Nat.mul_le_mul_right W hp
  rw [Nat.succ_mul] at hm
  simp only [Job.numBits, job]
  omega

theorem numBits_full (hW : 0 < W) {o c : ℕ} (ho : o < c) (hc : c * W < t.total)
    (hl : 2 * c ≤ t.payload.length) : t.job.numBits o = W := by
  have hcount : o < t.count := by
    rw [lt_count hW]
    exact ⟨(Nat.mul_le_mul_right W ho.le).trans_lt hc, by omega⟩
  have hm : (o + 1) * W ≤ c * W := Nat.mul_le_mul_right W ho
  rw [Nat.succ_mul] at hm
  rw [numBits_eq hW hcount]
  omega

/-- The last pair to be shifted is marked unless the frame is broken off. -/
theorem last_iff (hW : 0 < W) {c : ℕ} (hc : c < t.count) :
    t.Last c ↔ c + 1 = t.count ∧ ¬ t.Aborts := by
  have hlt := (lt_count hW).mp hc
  have hnext := @lt_count W t hW (c + 1)
  have htwo := t.two_count_le
  unfold Last Aborts
  constructor
  · intro h
    have hK : c + 1 = t.count := by
      have : ¬ c + 1 < t.count := by
        rw [hnext]
        omega
      omega
    refine ⟨hK, ?_⟩
    rw [← hK]
    omega
  · rintro ⟨hK, hno⟩
    by_contra hcon
    have : ¬ c + 1 < t.count := by omega
    rw [hnext] at this
    rw [← hK] at hno
    omega

theorem count_of_end (hW : 0 < W) {c : ℕ} (hc : c * W < t.total)
    (hl : t.payload.length = 2 * c + 1) : t.count = c := by
  have h1 : ¬ c < t.count := by
    rw [lt_count hW]
    omega
  have h2 : c ≤ t.count := by
    rcases Nat.eq_zero_or_pos c with h0 | hpos
    · omega
    · have : c - 1 < t.count := by
        rw [lt_count hW]
        exact ⟨(Nat.mul_le_mul_right W (by omega)).trans_lt hc, by omega⟩
      omega
  omega

theorem shifted_eq {tap : Tap} {j : ℕ} {r : JtagSerDesCore.Reg W}
    (h : Shows t.job tap (j * W) (t.job.numBits j) r.tdo) :
    r.dataOut >>> (W - t.job.numBits j) = t.tdoWord tap j :=
  h.shifted

end Task

end XvcSupport.AxisToJtagCore
