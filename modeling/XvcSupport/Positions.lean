import XvcSupport.SerDes

namespace XvcSupport.JtagSerDesCore

open AxisToJtag

variable {W : ℕ}

/-- The pairs of words of a frame, the number of bits to shift and the edges of TCK before. -/
structure Job (W : ℕ) where
  word : ℕ → BitVec W × BitVec W
  bits : ℕ
  hist : List Edge

namespace Job

variable (job : Job W)

/-- TMS and TDI for bit `q`. -/
def bit (q : ℕ) : Bool × Bool :=
  ((job.word (q / W)).1.getLsbD (q % W), (job.word (q / W)).2.getLsbD (q % W))

/-- The number of bits of word `j` that are shifted. -/
def numBits (j : ℕ) : ℕ := min W (job.bits - j * W)

/-- The edges of TCK after `q` bits. -/
def histAt (q : ℕ) : List Edge := job.hist ++ edgesOf ((List.range q).map job.bit)

/-- The edges of TCK after `j` words. -/
def histOf (j : ℕ) : List Edge := job.histAt (min (j * W) job.bits)

/-- TDO for bit `q`. -/
def sample (tap : Tap) (q : ℕ) : Bool := tap (job.histAt q) (job.bit q).1 (job.bit q).2

theorem numBits_le (j : ℕ) : job.numBits j ≤ W := Nat.min_le_left _ _

/-- Only the last word may have bits missing. -/
theorem numBits_pred {j : ℕ} (h1 : 1 ≤ j) (h : 0 < job.numBits j) : job.numBits (j - 1) = W := by
  obtain ⟨i, rfl⟩ : ∃ i, j = i + 1 := ⟨j - 1, by omega⟩
  have hm : (i + 1) * W = i * W + W := by ring
  unfold numBits at *
  rw [Nat.add_sub_cancel]
  omega

theorem bit_word (j : ℕ) {f : ℕ} (hf : f < W) :
    job.bit (j * W + f) = ((job.word j).1.getLsbD f, (job.word j).2.getLsbD f) := by
  have hd : (j * W + f) / W = j := by
    rw [Nat.add_comm, Nat.add_mul_div_right _ _ (by omega), Nat.div_eq_of_lt hf, Nat.zero_add]
  have hm : (j * W + f) % W = f := by
    rw [Nat.add_comm, Nat.add_mul_mod_self_right, Nat.mod_eq_of_lt hf]
  rw [bit, hd, hm]

theorem histAt_succ (q : ℕ) :
    job.histAt (q + 1) =
      job.histAt q ++ [⟨true, (job.bit q).1, (job.bit q).2⟩, ⟨false, (job.bit q).1, (job.bit q).2⟩]
      := by
  simp [histAt, List.range_succ, edgesOf]

theorem histOf_succ {j f : ℕ} (hf : f + 1 = job.numBits j) :
    job.histOf (j + 1) = job.histAt (j * W + f + 1) := by
  have hm : (j + 1) * W = j * W + W := by ring
  unfold histOf numBits at *
  congr 1
  omega

theorem histOf_of_pos {j : ℕ} (h : 0 < job.numBits j) : job.histOf j = job.histAt (j * W) := by
  unfold histOf numBits at *
  congr 1
  omega

end Job

/-- A position; `pre` says that the word was taken early, `ack` that this is being
acknowledged, `out` that the word before is offered. -/
inductive Pos
  | idle (j : ℕ) (out : Bool)
  | low (j f div : ℕ) (pre ack : Bool)
  | high (j f div : ℕ) (out : Bool)
  | tail (j div : ℕ)
  | waiMore (j : ℕ)
  | waiEnd (j : ℕ)

namespace Pos

variable (job : Job W)

/-- The step of the machine with a pair on offer or not and a receiver that is ready or
not. -/
def next (clkDiv2 : ℕ) (valid ready : Bool) : Pos → Pos
  | idle j _ => if valid then low j 0 (clkDiv2 - 1) false false else idle j false
  | low j f div pre _ =>
    if div = 0 then
      if pre then if ready then high j f (clkDiv2 - 1) true else waiMore j
      else high j f (clkDiv2 - 1) false
    else low j f (div - 1) pre false
  | high j f div _ =>
    if div = 0 then
      if f + 1 = job.numBits j then
        if valid then low (j + 1) 0 (clkDiv2 - 1) true true else tail j (clkDiv2 - 1)
      else low j (f + 1) (clkDiv2 - 1) false false
    else high j f (div - 1) false
  | tail j div =>
    if div = 0 then if ready then idle (j + 1) true else waiEnd j else tail j (div - 1)
  | waiMore j => if ready then high j 0 (clkDiv2 - 1) false else waiMore j
  | waiEnd j => if ready then idle (j + 1) false else waiEnd j

def taken : Pos → ℕ
  | idle j _ => j
  | low j .. | high j .. | tail j _ | waiMore j | waiEnd j => j + 1

def given : Pos → ℕ
  | idle j out => j - out.toNat
  | low j _ _ pre _ => j - pre.toNat
  | high j _ _ out => j - out.toNat
  | tail j _ => j
  | waiMore j => j - 1
  | waiEnd j => j

def acks : Pos → Bool
  | low _ _ _ _ ack => ack
  | _ => false

def rests : Pos → Bool
  | idle .. => true
  | _ => false

def iReady (pos : Pos) : Bool := pos.rests || pos.acks

def oValid : Pos → Bool
  | idle _ out | high _ _ _ out => out
  | waiMore _ | waiEnd _ => true
  | _ => false

def waits : Pos → Bool
  | waiMore _ | waiEnd _ => true
  | _ => false

/-- A pair on offer is taken in this cycle. -/
def takes : Pos → Bool
  | idle .. => true
  | high j f div _ => decide (div = 0 ∧ f + 1 = job.numBits j)
  | _ => false

end Pos

/-- A bound on the cycles until all bits are shifted, not counting those in which the
serializer waits for its neighbours. -/
def Pos.rank (job : Job W) (clkDiv2 : ℕ) : Pos → ℕ
  | idle j out => (3 * clkDiv2 + 5) * (job.bits - j * W) + out.toNat
  | low j f div _ _ => (3 * clkDiv2 + 5) * (job.bits - (j * W + f + 1)) + 2 * clkDiv2 + 5 + div
  | high j f div _ => (3 * clkDiv2 + 5) * (job.bits - (j * W + f + 1)) + clkDiv2 + 4 + div
  | tail j div => (3 * clkDiv2 + 5) * (job.bits - (j + 1) * W) + 3 + div
  | waiMore j => (3 * clkDiv2 + 5) * (job.bits - (j * W + 1)) + 2 * clkDiv2 + 4
  | waiEnd j => (3 * clkDiv2 + 5) * (job.bits - (j + 1) * W) + 2

variable (job : Job W) (tap : Tap)

/-- The last `m` bits collected are the samples from `q` on. -/
def Collected (q m : ℕ) (tdo : BitVec (W + 1)) : Prop :=
  ∀ i < m, tdo.getLsbD (W + 1 - m + i) = job.sample tap (q + i)

/-- The output shows the `m` samples from `q` on at its upper end. -/
def Shows (q m : ℕ) (tdo : BitVec (W + 1)) : Prop :=
  ∀ i < m, tdo.getLsbD (W - m + i) = job.sample tap (q + i)

/-- The registers of the serializer at a position, and the edges of TCK that go with it. -/
inductive At (clkDiv2 : ℕ) : Pos → Reg W → List Edge → Prop
  | idle {j : ℕ} {out : Bool} (cnt : ℤ) (div : ℕ) (tms tdi : BitVec W) (tdo : BitVec (W + 1))
      (hout : out = true → 1 ≤ j ∧ Shows job tap ((j - 1) * W) (job.numBits (j - 1)) tdo) :
      At clkDiv2 (.idle j out) ⟨cnt, div, tms, tdi, tdo, false, false, out, true, .idle⟩
        (job.histOf j)
  | low {j f div : ℕ} {pre ack : Bool} {tdo : BitVec (W + 1)}
      (hf : f < job.numBits j) (hdiv : div < clkDiv2)
      (hpre : pre = true → 1 ≤ j ∧ f = 0 ∧ Collected job tap ((j - 1) * W) W tdo)
      (htdo : pre = false → Collected job tap (j * W) f tdo) :
      At clkDiv2 (.low j f div pre ack)
        ⟨job.numBits j - 1 - f, div, (job.word j).1 >>> f, (job.word j).2 >>> f, tdo, false, pre,
          false, ack, .shift⟩ (job.histAt (j * W + f))
  | high {j f div : ℕ} {out : Bool} {tdo : BitVec (W + 1)}
      (hf : f < job.numBits j) (hdiv : div < clkDiv2)
      (hout : out = true → 1 ≤ j ∧ f = 0 ∧ Shows job tap ((j - 1) * W) W tdo)
      (htdo : Collected job tap (j * W) (f + 1) tdo) :
      At clkDiv2 (.high j f div out)
        ⟨job.numBits j - 1 - f, div, (job.word j).1 >>> f, (job.word j).2 >>> f, tdo, true, false,
          out, false, .shift⟩
        (job.histAt (j * W + f) ++
          [⟨true, (job.bit (j * W + f)).1, (job.bit (j * W + f)).2⟩])
  | tail {j div : ℕ} (tms tdi : BitVec W) {tdo : BitVec (W + 1)}
      (hj : 0 < job.numBits j) (hdiv : div < clkDiv2)
      (htdo : Collected job tap (j * W) (job.numBits j) tdo) :
      At clkDiv2 (.tail j div) ⟨-1, div, tms, tdi, tdo, false, true, false, false, .shift⟩
        (job.histOf (j + 1))
  | waiMore {j : ℕ} (div : ℕ) {tdo : BitVec (W + 1)}
      (h1 : 1 ≤ j) (hj : 0 < job.numBits j) (hshow : Shows job tap ((j - 1) * W) W tdo)
      (htdo : Collected job tap (j * W) 1 tdo) :
      At clkDiv2 (.waiMore j)
        ⟨job.numBits j - 1, div, (job.word j).1, (job.word j).2, tdo, false, false, true, false,
          .wai⟩ (job.histAt (j * W))
  | waiEnd {j : ℕ} (div : ℕ) (tms tdi : BitVec W) {tdo : BitVec (W + 1)}
      (hj : 0 < job.numBits j) (hshow : Shows job tap (j * W) (job.numBits j) tdo) :
      At clkDiv2 (.waiEnd j) ⟨-1, div, tms, tdi, tdo, false, false, true, false, .wai⟩
        (job.histOf (j + 1))

variable {job tap}

/-- A pair that is taken is the next one of the job. -/
def Fed (job : Job W) (pos : Pos) (i : In W) : Prop :=
  i.dataInValid = true → pos.takes job = true →
    (i.dataInTms, i.dataInTdi) = job.word pos.taken ∧ i.numBits + 1 = job.numBits pos.taken

theorem getLsbD_sampled (b : Bool) (tdo : BitVec (W + 1)) (k : ℕ) :
    (BitVec.cons b (tdo.extractLsb' 1 W)).getLsbD k =
      if k = W then b else tdo.getLsbD (k + 1) := by
  rw [BitVec.getLsbD_cons]
  split_ifs with hk
  · rfl
  · rw [BitVec.getLsbD_extractLsb', Nat.add_comm 1 k]
    by_cases hlt : k < W
    · simp [hlt]
    · rw [BitVec.getLsbD_of_ge tdo (k + 1) (by omega)]
      simp

theorem Collected.sampled {q m : ℕ} {tdo : BitVec (W + 1)} (h : Collected job tap q m tdo)
    (hm : m ≤ W) :
    Collected job tap q (m + 1) (BitVec.cons (job.sample tap (q + m)) (tdo.extractLsb' 1 W)) := by
  intro i hi
  rw [getLsbD_sampled]
  split_ifs with hk
  · rw [show m = i by omega]
  · rw [← h i (by omega)]
    congr 1
    omega

/-- A further sample, whatever it is, moves a complete word to where the output shows it. -/
theorem Collected.shows {q m : ℕ} {tdo : BitVec (W + 1)} (h : Collected job tap q m tdo)
    (hm : m ≤ W) (b : Bool) : Shows job tap q m (BitVec.cons b (tdo.extractLsb' 1 W)) := by
  intro i hi
  rw [getLsbD_sampled, if_neg (by omega), ← h i hi]
  congr 1
  omega

theorem Shows.shifted {j : ℕ} {r : Reg W} (h : Shows job tap (j * W) (job.numBits j) r.tdo) :
    r.dataOut >>> (W - job.numBits j) = tdoWord W job.bits (job.sample tap) j := by
  have hle := job.numBits_le j
  apply BitVec.eq_of_getLsbD_eq
  intro i hi
  have hlt : i < job.numBits j ↔ j * W + i < job.bits := by
    unfold Job.numBits
    omega
  simp only [BitVec.getLsbD_ushiftRight, Reg.dataOut, BitVec.getLsbD_setWidth, tdoWord,
    BitVec.getLsbD_ofFnLE]
  by_cases hb : i < job.numBits j
  · rw [h i hb, decide_eq_true (by omega : W - job.numBits j + i < W)]
    simp [hi, hlt.mp hb]
  · rw [decide_eq_false (by omega : ¬ W - job.numBits j + i < W)]
    simp [hlt] at hb
    simp [hi, hb]

theorem collected_one {q : ℕ} {tdo : BitVec (W + 1)} :
    Collected job tap q 1 (BitVec.cons (job.sample tap q) (tdo.extractLsb' 1 W)) := by
  intro i hi
  rw [getLsbD_sampled, if_pos (by omega), show i = 0 by omega, Nat.add_zero]

theorem pins_shifted {j f : ℕ} (hf : f < job.numBits j) :
    (((job.word j).1 >>> f).getLsbD 0, ((job.word j).2 >>> f).getLsbD 0) =
      job.bit (j * W + f) := by
  rw [job.bit_word j (by have := job.numBits_le j; omega)]
  simp

variable {clkDiv2 : ℕ} {r : Reg W} {h : List Edge}

theorem pins_word {j : ℕ} (hj : 0 < job.numBits j) :
    ((job.word j).1.getLsbD 0, (job.word j).2.getLsbD 0) = job.bit (j * W) := by
  simpa using pins_shifted hj

theorem At.of_eq {pos : Pos} {r' : Reg W} {h' : List Edge} (hat : At job tap clkDiv2 pos r h)
    (hr : r' = r) (hh : h' = h) : At job tap clkDiv2 pos r' h' := by
  rw [hr, hh]
  exact hat

theorem At.next_idle {j : ℕ} {out : Bool} (hat : At job tap clkDiv2 (.idle j out) r h)
    (hD : 0 < clkDiv2) {i : In W} (hfed : Fed job (.idle j out) i) :
    At job tap clkDiv2 ((Pos.idle j out).next job clkDiv2 i.dataInValid i.dataOutReady)
      (r.next clkDiv2 i) (r.clock (r.next clkDiv2 i) h) := by
  cases hat with
  | @idle _ _ cnt div tms tdi tdo hout =>
    cases hv : i.dataInValid with
    | false =>
      simp only [Reg.next, Reg.clock, Pos.next, hv]
      exact .idle cnt div tms tdi tdo (by simp)
    | true =>
      obtain ⟨hw, hn⟩ := hfed hv rfl
      simp only [Pos.taken] at hw hn
      have hcol : Collected job tap (j * W) 0 tdo := fun _ hi => absurd hi (Nat.not_lt_zero _)
      have hlow : At job tap clkDiv2 (.low j 0 (clkDiv2 - 1) false false) _ _ :=
        .low (by omega) (by omega) (by simp) (fun _ => hcol)
      refine hlow.of_eq ?_ ?_
      · simp [Reg.next, hv, ← hw, ← hn]
      · simp [Reg.clock, Reg.next, hv, job.histOf_of_pos (by omega : 0 < job.numBits j)]

theorem At.next_low {j f div : ℕ} {pre ack : Bool}
    (hat : At job tap clkDiv2 (.low j f div pre ack) r h)
    (hD : 0 < clkDiv2) {i : In W} (htap : i.tdo = tap h r.pins.1 r.pins.2) :
    At job tap clkDiv2 ((Pos.low j f div pre ack).next job clkDiv2 i.dataInValid i.dataOutReady)
      (r.next clkDiv2 i) (r.clock (r.next clkDiv2 i) h) := by
  cases hat with
  | @low _ _ _ _ _ tdo hf hdiv hpre htdo =>
    have hW := job.numBits_le j
    have hp := pins_shifted hf
    have hs : i.tdo = job.sample tap (j * W + f) := by
      rw [htap, Job.sample, ← hp]
      rfl
    by_cases hz : div = 0
    · subst hz
      -- the rising edge: TDO is sampled, and after the last bit of a word the word is offered
      cases pre with
      | false =>
        have hhigh : At job tap clkDiv2 (.high j f (clkDiv2 - 1) false) _ _ :=
          .high hf (by omega) (by simp) ((htdo rfl).sampled (by omega))
        refine hhigh.of_eq ?_ ?_
        · simp [Reg.next, Reg.raise, hs]
        · simp [Reg.clock, Reg.next, Reg.raise, Reg.pins, ← hp]
      | true =>
        obtain ⟨h1, rfl, hcol⟩ := hpre rfl
        have hcnt : (1 : ℤ) ≤ job.numBits j := by exact_mod_cast hf
        have hshow := hcol.shows (le_refl W) i.tdo
        have hone : Collected job tap (j * W) 1 (BitVec.cons i.tdo (tdo.extractLsb' 1 W)) := by
          rw [hs]
          exact collected_one
        -- a receiver that is not ready stops the clock before the next word
        cases hr : i.dataOutReady with
        | false =>
          have hwai : At job tap clkDiv2 (.waiMore j) _ _ :=
            .waiMore 0 h1 hf hshow hone
          refine hwai.of_eq ?_ ?_
          · simp [Reg.next, Reg.raise, hr]
          · simp [Reg.clock, Reg.next, Reg.raise, hr]
        | true =>
          have hhigh : At job tap clkDiv2 (.high j 0 (clkDiv2 - 1) true) _ _ :=
            .high hf (by omega) (fun _ => ⟨h1, rfl, hshow⟩) hone
          refine hhigh.of_eq ?_ ?_
          · simp [Reg.next, Reg.raise, hr, hcnt]
          · simp [Reg.clock, Reg.next, Reg.raise, hr, hcnt, Reg.pins, ← pins_word hf]
    · have hlow : At job tap clkDiv2 (.low j f (div - 1) pre false) _ _ :=
        .low hf (by omega) hpre htdo
      simp only [Pos.next, if_neg hz]
      refine hlow.of_eq ?_ ?_
      · simp [Reg.next, hz]
      · simp [Reg.clock, Reg.next, hz]

theorem At.next_high {j f div : ℕ} {out : Bool} (hat : At job tap clkDiv2 (.high j f div out) r h)
    (hD : 0 < clkDiv2) {i : In W} (hfed : Fed job (.high j f div out) i) :
    At job tap clkDiv2 ((Pos.high j f div out).next job clkDiv2 i.dataInValid i.dataOutReady)
      (r.next clkDiv2 i) (r.clock (r.next clkDiv2 i) h) := by
  cases hat with
  | @high _ _ _ _ tdo hf hdiv hout htdo =>
    have hW := job.numBits_le j
    have hp := pins_shifted hf
    -- the falling edge completes the period of the bit
    have hhist : job.histAt (j * W + f) ++
        [⟨true, (job.bit (j * W + f)).1, (job.bit (j * W + f)).2⟩] ++
        [⟨false, (job.bit (j * W + f)).1, (job.bit (j * W + f)).2⟩] =
        job.histAt (j * W + f + 1) := by
      rw [job.histAt_succ]
      simp
    by_cases hz : div = 0
    · subst hz
      by_cases hl : f + 1 = job.numBits j
      · have hcnt : (job.numBits j : ℤ) - 1 - f = 0 := by omega
        -- the last bit of a word: the next word is there already, or the register pauses
        cases hv : i.dataInValid with
        | false =>
          have htail : At job tap clkDiv2 (.tail j (clkDiv2 - 1)) _ _ :=
            .tail ((job.word j).1 >>> f >>> 1) ((job.word j).2 >>> f >>> 1) (by omega) (by omega)
              (hl ▸ htdo)
          simp only [Pos.next, if_pos hl]
          refine htail.of_eq ?_ ?_
          · simp only [Reg.next, Reg.lower, hcnt, hv]
            rfl
          · rw [job.histOf_succ hl, ← hhist]
            simp [Reg.clock, Reg.next, Reg.lower, hcnt, hv, Reg.pins, ← hp]
        | true =>
          obtain ⟨hw, hn⟩ := hfed hv (by simp [Pos.takes, hl])
          simp only [Pos.taken] at hw hn
          have hfull := job.numBits_pred (j := j + 1) (by omega) (by omega)
          rw [Nat.add_sub_cancel] at hfull
          have hcol : Collected job tap ((j + 1 - 1) * W) W tdo := by
            rw [Nat.add_sub_cancel]
            exact (hl.trans hfull) ▸ htdo
          have hlow : At job tap clkDiv2 (.low (j + 1) 0 (clkDiv2 - 1) true true) _ _ :=
            .low (by omega) (by omega) (fun _ => ⟨by omega, rfl, hcol⟩) (by simp)
          simp only [Pos.next, if_pos hl]
          refine hlow.of_eq ?_ ?_
          · simp [Reg.next, Reg.lower, hcnt, hv, ← hw, ← hn]
          · rw [show (j + 1) * W + 0 = j * W + f + 1 by rw [Nat.add_mul]; omega, ← hhist]
            simp [Reg.clock, Reg.next, Reg.lower, hcnt, hv, Reg.pins, ← hp]
      · have hcnt : (job.numBits j : ℤ) - 1 - f ≠ 0 := by omega
        have hlow : At job tap clkDiv2 (.low j (f + 1) (clkDiv2 - 1) false false) _ _ :=
          .low (by omega) (by omega) (by simp) (fun _ => htdo)
        simp only [Pos.next, if_neg hl]
        refine hlow.of_eq ?_ ?_
        · simp only [Reg.next, Reg.lower, hcnt, BitVec.shiftRight_add]
          simp
          omega
        · rw [← Nat.add_assoc, ← hhist]
          simp [Reg.clock, Reg.next, Reg.lower, hcnt, Reg.pins, ← hp]
    · have hhigh : At job tap clkDiv2 (.high j f (div - 1) false) _ _ :=
        .high hf (by omega) (by simp) htdo
      simp only [Pos.next, if_neg hz]
      refine hhigh.of_eq ?_ ?_
      · simp [Reg.next, hz]
      · simp [Reg.clock, Reg.next, hz]

theorem At.next_tail {j div : ℕ} (hat : At job tap clkDiv2 (.tail j div) r h) {i : In W} :
    At job tap clkDiv2 ((Pos.tail j div).next job clkDiv2 i.dataInValid i.dataOutReady)
      (r.next clkDiv2 i) (r.clock (r.next clkDiv2 i) h) := by
  cases hat with
  | @tail _ _ tms tdi tdo hj hdiv htdo =>
    by_cases hz : div = 0
    · subst hz
      have hshow := htdo.shows (job.numBits_le j) i.tdo
      cases hr : i.dataOutReady with
      | false =>
        have hwai : At job tap clkDiv2 (.waiEnd j) _ _ :=
          .waiEnd 0 tms tdi hj hshow
        refine hwai.of_eq ?_ ?_
        · simp [Reg.next, Reg.raise, hr]
        · simp [Reg.clock, Reg.next, Reg.raise, hr]
      | true =>
        have hidle : At job tap clkDiv2 (.idle (j + 1) true) _ _ :=
          .idle (-1) 0 tms tdi _ (fun _ => ⟨by omega, hshow⟩)
        refine hidle.of_eq ?_ ?_
        · simp [Reg.next, Reg.raise, hr]
        · simp [Reg.clock, Reg.next, Reg.raise, hr]
    · have htail : At job tap clkDiv2 (.tail j (div - 1)) _ _ :=
        .tail tms tdi hj (by omega) htdo
      simp only [Pos.next, if_neg hz]
      refine htail.of_eq ?_ ?_
      · simp [Reg.next, hz]
      · simp [Reg.clock, Reg.next, hz]

theorem At.next_waiMore {j : ℕ} (hat : At job tap clkDiv2 (.waiMore j) r h) (hD : 0 < clkDiv2)
    {i : In W} :
    At job tap clkDiv2 ((Pos.waiMore j).next job clkDiv2 i.dataInValid i.dataOutReady)
      (r.next clkDiv2 i) (r.clock (r.next clkDiv2 i) h) := by
  cases hat with
  | waiMore div h1 hj hshow htdo =>
    cases hr : i.dataOutReady with
    | false =>
      have hwai : At job tap clkDiv2 (.waiMore j) _ _ := .waiMore div h1 hj hshow htdo
      refine hwai.of_eq ?_ ?_
      · simp [Reg.next, hr]
      · simp [Reg.clock, Reg.next, hr]
    | true =>
      have hcnt : (1 : ℤ) ≤ job.numBits j := by exact_mod_cast hj
      have hhigh : At job tap clkDiv2 (.high j 0 (clkDiv2 - 1) false) _ _ :=
        .high hj (by omega) (by simp) htdo
      refine hhigh.of_eq ?_ ?_
      · simp [Reg.next, hr, hcnt]
      · simp [Reg.clock, Reg.next, hr, hcnt, Reg.pins, ← pins_word hj]

theorem At.next_waiEnd {j : ℕ} (hat : At job tap clkDiv2 (.waiEnd j) r h) {i : In W} :
    At job tap clkDiv2 ((Pos.waiEnd j).next job clkDiv2 i.dataInValid i.dataOutReady)
      (r.next clkDiv2 i) (r.clock (r.next clkDiv2 i) h) := by
  cases hat with
  | @waiEnd _ div tms tdi tdo hj hshow =>
    cases hr : i.dataOutReady with
    | false =>
      have hwai : At job tap clkDiv2 (.waiEnd j) _ _ :=
        .waiEnd div tms tdi hj hshow
      refine hwai.of_eq ?_ ?_
      · simp [Reg.next, hr]
      · simp [Reg.clock, Reg.next, hr]
    | true =>
      have hidle : At job tap clkDiv2 (.idle (j + 1) false) _ _ :=
        .idle (-1) div tms tdi tdo (by simp)
      refine hidle.of_eq ?_ ?_
      · simp [Reg.next, hr]
      · simp [Reg.clock, Reg.next, hr]

theorem At.next {pos : Pos} (hat : At job tap clkDiv2 pos r h) (hD : 0 < clkDiv2) {i : In W}
    (hfed : Fed job pos i) (htap : i.tdo = tap h r.pins.1 r.pins.2) :
    At job tap clkDiv2 (pos.next job clkDiv2 i.dataInValid i.dataOutReady) (r.next clkDiv2 i)
      (r.clock (r.next clkDiv2 i) h) := by
  cases pos with
  | idle j out => exact hat.next_idle hD hfed
  | low j f div pre ack => exact hat.next_low hD htap
  | high j f div out => exact hat.next_high hD hfed
  | tail j div => exact hat.next_tail
  | waiMore j => exact hat.next_waiMore hD
  | waiEnd j => exact hat.next_waiEnd

theorem At.oValid_eq {pos : Pos} (hat : At job tap clkDiv2 pos r h) : r.oValid = pos.oValid := by
  cases hat <;> rfl

theorem At.iReady_eq {pos : Pos} (hat : At job tap clkDiv2 pos r h) : r.iReady = pos.iReady := by
  cases hat <;> rfl

theorem At.shows {pos : Pos} (hat : At job tap clkDiv2 pos r h) (hv : pos.oValid = true) :
    pos.given < pos.taken ∧ Shows job tap (pos.given * W) (job.numBits pos.given) r.tdo := by
  cases hat with
  | idle cnt div tms tdi tdo hout =>
    obtain rfl : _ = true := hv
    obtain ⟨h1, hshow⟩ := hout rfl
    exact ⟨by simp only [Pos.given, Pos.taken, Bool.toNat_true]; omega, hshow⟩
  | low => simp [Pos.oValid] at hv
  | high hf hdiv hout htdo =>
    obtain rfl : _ = true := hv
    obtain ⟨h1, rfl, hshow⟩ := hout rfl
    refine ⟨by simp only [Pos.given, Pos.taken, Bool.toNat_true]; omega, ?_⟩
    simp only [Pos.given, Bool.toNat_true, job.numBits_pred h1 hf]
    exact hshow
  | tail => simp [Pos.oValid] at hv
  | waiMore div h1 hj hshow htdo =>
    refine ⟨by simp only [Pos.given, Pos.taken]; omega, ?_⟩
    simp only [Pos.given, job.numBits_pred h1 hj]
    exact hshow
  | waiEnd div tms tdi hj hshow => exact ⟨by simp [Pos.given, Pos.taken], hshow⟩

namespace Pos

theorem given_le_taken (pos : Pos) : pos.given ≤ pos.taken := by
  cases pos <;> simp only [given, taken] <;> omega

/-- At most two words are inside. -/
theorem taken_le (pos : Pos) : pos.taken ≤ pos.given + 2 := by
  cases pos with
  | idle j out => cases out <;> simp only [given, taken, Bool.toNat] <;> grind
  | low j f div pre ack => cases pre <;> simp only [given, taken, Bool.toNat] <;> grind
  | high j f div out => cases out <;> simp only [given, taken, Bool.toNat] <;> grind
  | tail | waiMore | waiEnd => simp only [given, taken]; omega

theorem taken_next (pos : Pos) (valid ready : Bool) :
    (pos.next job clkDiv2 valid ready).taken =
      pos.taken + (valid && pos.takes job).toNat := by
  cases pos with
  | idle j out => cases valid <;> simp [next, taken, takes]
  | low j f div pre ack => simp only [next, takes]; split_ifs <;> simp [taken]
  | high j f div out =>
    simp only [next, takes]
    split_ifs with hz hl hv
    · simp [taken, hz, hl, hv]
    · simp [taken, hv]
    · simp [taken, hl]
    · simp [taken, hz]
  | tail | waiMore | waiEnd => simp only [next, takes]; split_ifs <;> simp [taken]

theorem acks_next (pos : Pos) (valid ready : Bool) :
    (pos.next job clkDiv2 valid ready).acks = (valid && pos.takes job && !pos.rests) := by
  cases pos with
  | idle j out => cases valid <;> simp [next, acks, rests]
  | high j f div out =>
    simp only [next, takes, rests]
    split_ifs with hz hl hv
    · simp [acks, hz, hl, hv]
    · simp [acks, hv]
    · simp [acks, hl]
    · simp [acks, hz]
  | low | tail | waiMore | waiEnd => simp only [next, takes]; split_ifs <;> simp [acks]

theorem takes_of_acks {pos : Pos} (h : pos.acks = true) :
    pos.takes job = false ∧ pos.rests = false := by
  cases pos <;> simp_all [acks, takes, rests]

theorem oValid_of_acks {pos : Pos} (h : pos.acks = true) :
    pos.oValid = false := by
  cases pos <;> simp_all [Pos.acks, Pos.oValid]

theorem oValid_next {pos : Pos} {valid ready : Bool}
    (hv : (pos.next job clkDiv2 valid ready).oValid = true)
    (hw : (pos.next job clkDiv2 valid ready).waits = false) :
    pos.oValid = false ∧ ready = true := by
  cases pos with
  | idle j out => cases valid <;> simp [Pos.next, Pos.oValid] at hv
  | low j f div pre ack =>
    simp only [Pos.next] at hv hw
    split_ifs at hv hw with hz hp hr
    · exact ⟨rfl, hr⟩
    all_goals simp [Pos.oValid, Pos.waits] at hv hw
  | high j f div out =>
    simp only [Pos.next] at hv
    split_ifs at hv <;> simp [Pos.oValid] at hv
  | tail j div =>
    simp only [Pos.next] at hv hw
    split_ifs at hv hw with hz hr
    · exact ⟨rfl, hr⟩
    all_goals simp [Pos.oValid, Pos.waits] at hv hw
  | waiMore j => cases ready <;> simp [Pos.next, Pos.oValid, Pos.waits] at hv hw
  | waiEnd j => cases ready <;> simp [Pos.next, Pos.oValid, Pos.waits] at hv hw

theorem takes_of_rests {pos : Pos} (h : pos.rests = true) : pos.takes job = true := by
  cases pos <;> simp_all [rests, takes]

end Pos

/-- A word that is offered is gone in the next cycle, unless the serializer waits. -/
theorem At.given_next {pos : Pos} (hat : At job tap clkDiv2 pos r h) (valid ready : Bool) :
    (pos.next job clkDiv2 valid ready).given =
      pos.given + (pos.oValid && (ready || !pos.waits)).toNat := by
  cases hat with
  | @idle j out cnt div tms tdi tdo hout =>
    cases out with
    | false => cases valid <;> simp [Pos.next, Pos.given, Pos.oValid]
    | true =>
      have h1 := (hout rfl).1
      cases valid <;> simp [Pos.next, Pos.given, Pos.oValid, Pos.waits, h1]
  | @low j f div pre ack tdo hf hdiv hpre htdo =>
    simp only [Pos.next, Pos.oValid]
    split_ifs with hz hp hr
    · simp [Pos.given, hp]
    · simp [Pos.given, hp]
    · simp [Pos.given, hp]
    · simp [Pos.given]
  | @high j f div out tdo hf hdiv hout htdo =>
    have hsum : j - out.toNat + out.toNat = j := by
      cases out with
      | false => rfl
      | true => have := (hout rfl).1; simp only [Bool.toNat_true]; omega
    simp only [Pos.next, Pos.oValid, Pos.waits, Bool.not_false, Bool.or_true, Bool.and_true]
    split_ifs <;> simp [Pos.given, hsum]
  | tail => simp only [Pos.next, Pos.oValid]; split_ifs <;> simp [Pos.given]
  | waiMore div h1 =>
    cases ready <;> simp [Pos.next, Pos.oValid, Pos.waits, Pos.given, h1]
  | waiEnd => cases ready <;> simp [Pos.next, Pos.oValid, Pos.waits, Pos.given]

def Pos.stuck (valid ready : Bool) : Pos → Bool
  | idle _ out => !out && !valid
  | waiMore _ | waiEnd _ => !ready
  | _ => false

theorem mul_sub_succ (B : ℕ) {n q : ℕ} (h : q < n) : B * (n - q) = B * (n - (q + 1)) + B := by
  rw [show n - q = n - (q + 1) + 1 by omega, Nat.mul_succ]

theorem Job.lt_bits {j f : ℕ} (hf : f < job.numBits j) : j * W + f < job.bits := by
  unfold Job.numBits at hf
  omega

/-- The rank never grows, and it falls whenever the serializer is not held up. -/
theorem At.rank_next {pos : Pos} {valid ready : Bool} {r' : Reg W} {h' : List Edge}
    (hat : At job tap clkDiv2 pos r h)
    (hat' : At job tap clkDiv2 (pos.next job clkDiv2 valid ready) r' h') :
    (pos.next job clkDiv2 valid ready).rank job clkDiv2 + (!pos.stuck valid ready).toNat ≤
      pos.rank job clkDiv2 := by
  cases hat with
  | @idle j out cnt div tms tdi tdo hout =>
    cases valid with
    | false => cases out <;> simp [Pos.next, Pos.rank, Pos.stuck]
    | true =>
      cases hat' with
      | low hf hdiv _ _ =>
        have hstep := mul_sub_succ (3 * clkDiv2 + 5) (job.lt_bits hf)
        simp [Pos.rank, Pos.next, Pos.stuck] at hstep ⊢
        omega
  | @low j f div pre ack tdo hf hdiv hpre htdo =>
    have hf0 : pre = true → f = 0 := fun hp => (hpre hp).2.1
    simp only [Pos.next, Pos.stuck]
    split_ifs with hz hp hr
    · simp [Pos.rank]
      omega
    · simp [Pos.rank, hf0 hp]
    · simp [Pos.rank]
      omega
    · simp [Pos.rank]
      omega
  | @high j f div out tdo hf hdiv hout htdo =>
    simp only [Pos.next, Pos.stuck] at hat' ⊢
    split_ifs at hat' ⊢ with hz hl hv
    · cases hat' with
      | low hf' hdiv' _ _ =>
        -- only full words are followed by another one, so the bits add up across the words
        have hfull := job.numBits_pred (j := j + 1) (by omega) (by omega)
        rw [Nat.add_sub_cancel] at hfull
        have hlt := job.lt_bits hf'
        have hq : (j + 1) * W = j * W + f + 1 := by rw [Nat.add_mul]; omega
        rw [hq] at hlt
        have hstep := mul_sub_succ (3 * clkDiv2 + 5) hlt
        simp [Pos.rank, hq] at hstep ⊢
        omega
    · have hle : job.bits - (j + 1) * W ≤ job.bits - (j * W + f + 1) := by
        have := job.numBits_le j
        have hq : (j + 1) * W = j * W + W := by ring
        omega
      have := Nat.mul_le_mul_left (3 * clkDiv2 + 5) hle
      simp [Pos.rank]
      omega
    · cases hat' with
      | low hf' hdiv' _ _ =>
        have hstep := mul_sub_succ (3 * clkDiv2 + 5) (job.lt_bits hf')
        rw [← Nat.add_assoc] at hstep
        simp only [Pos.rank, ← Nat.add_assoc, Bool.not_false, Bool.toNat_true]
        omega
    · simp [Pos.rank]
      omega
  | @tail j div tms tdi tdo hj hdiv htdo =>
    simp only [Pos.next, Pos.stuck]
    split_ifs <;> simp [Pos.rank] <;> omega
  | @waiMore j div tdo h1 hj hshow htdo =>
    cases ready with
    | false => simp [Pos.next, Pos.stuck]
    | true =>
      cases hat' with
      | high hf hdiv' _ _ =>
        simp [Pos.next, Pos.stuck, Pos.rank]
        omega
  | waiEnd => cases ready <;> simp [Pos.next, Pos.stuck, Pos.rank]

end XvcSupport.JtagSerDesCore
