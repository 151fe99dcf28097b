import XvcSupport.BitBang

namespace XvcSupport.JtagDriverTmemFifo

open AxisToJtag Axis2TmemFifo Tmem2BSCANWrapper RegisterDriver

open JtagSerDesCore (Job Pos At Fed Shows)

namespace Call

variable (c : Call) (h : List Edge) {tap : Tap}

def job : Job 32 where
  word := fun _ => (c.tms, c.tdi)
  bits := c.nbits
  hist := h

theorem numBits_job : (c.job h).numBits 0 = c.nbits := by
  have := c.le
  simp only [Job.numBits, job]
  omega

theorem bits_take {q : ℕ} (hq : q ≤ c.nbits) :
    (List.range q).map (c.job h).bit = c.bits.take q := by
  rw [bits, ← List.map_take, List.take_range, Nat.min_eq_left hq]
  apply List.map_congr_left
  intro i hi
  have hlt : i < 32 := ((List.mem_range.mp hi).trans_le hq).trans_le c.le
  simp [Job.bit, job, Nat.mod_eq_of_lt hlt]

theorem histAt_job {q : ℕ} (hq : q ≤ c.nbits) :
    (c.job h).histAt q = h ++ edgesOf (c.bits.take q) := by
  rw [Job.histAt, c.bits_take h hq]
  rfl

theorem histOf_job : (c.job h).histOf 1 = h ++ edgesOf c.bits := by
  have hmin : min (1 * 32) (c.job h).bits = c.nbits := Nat.min_eq_right c.le
  rw [Job.histOf, hmin, c.histAt_job h le_rfl, List.take_of_length_le c.bits_length.le]

theorem tdoWord_job : tdoWord 32 c.nbits ((c.job h).sample tap) 0 = c.tdo tap h := by
  apply BitVec.eq_of_getLsbD_eq
  intro k hk
  rw [c.getLsbD_tdo hk]
  simp only [tdoWord, BitVec.getLsbD_ofFnLE, hk, dif_pos, Nat.zero_mul, Nat.zero_add]
  by_cases hlt : k < c.nbits
  · rw [Job.sample, c.histAt_job h hlt.le, c.tdoAt_eq hlt]
    simp [Job.bit, job, Nat.mod_eq_of_lt hk]
  · simp [hlt]

end Call

/-- The serializer has nothing to do and nothing to offer. -/
structure SerDesIdle (r : JtagSerDesCore.Reg 32) : Prop where
  state : r.state = .idle
  iReady : r.iReady = true
  oValid : r.oValid = false
  tck : r.tck = false
  lastBit : r.lastBit = false

variable {cs : BitVec 2} {tap : Tap} {s s' : Board} {a : Around} {c : Call} {h : List Edge}

theorem SerDesIdle.at_job {r : JtagSerDesCore.Reg 32} (hr : SerDesIdle r) :
    At (c.job h) tap CLK_DIV2_G (.idle 0 false) r h := by
  have hhist : (c.job h).histOf 0 = h := by
    rw [Job.histOf, Nat.zero_mul, Nat.zero_min, c.histAt_job h (Nat.zero_le _)]
    exact List.append_nil h
  obtain ⟨cnt, div, tms, tdi, tdo, tck, lastBit, oValid, iReady, state⟩ := r
  obtain ⟨rfl, rfl, rfl, rfl, rfl⟩ := hr
  have hidle : At (c.job h) tap CLK_DIV2_G (.idle 0 false) _ ((c.job h).histOf 0) :=
    .idle cnt div tms tdi tdo (by simp)
  rw [hhist] at hidle
  exact hidle

theorem SerDesIdle.of_at {job : Job 32} {j : ℕ} {r : JtagSerDesCore.Reg 32} {hist : List Edge}
    (hat : At job tap CLK_DIV2_G (.idle j false) r hist) : SerDesIdle r := by
  cases hat
  exact ⟨rfl, rfl, rfl, rfl, rfl⟩

theorem hist_of_idle {job : Job 32} {j : ℕ} {out : Bool} {r : JtagSerDesCore.Reg 32}
    {hist : List Edge} (hat : At job tap CLK_DIV2_G (.idle j out) r hist) :
    hist = job.histOf j := by
  cases hat
  rfl

theorem SerDesIdle.next {r : JtagSerDesCore.Reg 32} (hr : SerDesIdle r)
    {i : JtagSerDesCore.In 32} (hi : i.dataInValid = false) : r.next CLK_DIV2_G i = r := by
  obtain ⟨cnt, div, tms, tdi, tdo, tck, lastBit, oValid, iReady, state⟩ := r
  obtain ⟨rfl, rfl, rfl, rfl, rfl⟩ := hr
  simp [JtagSerDesCore.Reg.next, hi]

theorem tck_eq (h : s.bb_ena = false) : s.tck = s.serDes.tck := by
  rw [Board.tck, h, muxSlv, Bool.and_false, Bool.not_false, Bool.and_true, Bool.false_or]

theorem tms_eq (h : s.bb_ena = false) : s.tms = s.serDes.pins.1 := by
  rw [Board.tms, h, muxSlv, Bool.and_false, Bool.not_false, Bool.and_true, Bool.false_or]

theorem tdi_eq (h : s.bb_ena = false) : s.tdi = s.serDes.pins.2 := by
  rw [Board.tdi, h, muxSlv, Bool.and_false, Bool.not_false, Bool.and_true, Bool.false_or]

theorem hist_eq {aux : BitVec 128} (hs : After tap aux s s') (he : s.bb_ena = false)
    (he' : s'.bb_ena = false) : s'.hist = s.serDes.clock s'.serDes s.hist := by
  rw [hs.hist, tck_eq he, tck_eq he', tms_eq he, tdi_eq he]
  rfl

theorem at_next {aux : BitVec 128} {job : Job 32} {pos : Pos} (hs : After tap aux s s')
    (he : s.bb_ena = false) (he' : s'.bb_ena = false)
    (hat : At job tap CLK_DIV2_G pos s.serDes s.hist) (hfed : Fed job pos (s.serDesIn tap)) :
    At job tap CLK_DIV2_G (pos.next job CLK_DIV2_G s.serDesInVal true) s'.serDes s'.hist := by
  have htdo : (s.serDesIn tap).tdo = tap s.hist s.serDes.pins.1 s.serDes.pins.2 := by
    rw [← tms_eq he, ← tdi_eq he]
    rfl
  have hnext := hat.next (by decide) hfed htdo
  rw [← hs.serDes, ← hist_eq hs he he'] at hnext
  exact hnext

/-- The serializer has nothing to do, whoever drives the pins. -/
structure Quiescent (s : Board) : Prop where
  running : Running s.fifo
  val : s.serDesInVal = false
  idle : SerDesIdle s.serDes

theorem Quiescent.serDes_eq {aux : BitVec 128} (hi : Quiescent s) (hs : After tap aux s s') :
    s'.serDes = s.serDes := by
  rw [hs.serDes]
  exact hi.idle.next hi.val

theorem Quiescent.val_next (hi : Quiescent s) (hs : After tap (s.auxOut tap a) s s') :
    s'.serDesInVal = false := by
  rw [Board.serDesInVal, hs.auxIn, auxOut_run, hi.val, Bool.false_and]

/-- The serializer may be used. -/
structure Resting (s : Board) : Prop extends Quiescent s where
  ena : s.bb_ena = false

theorem Resting.hist_kept {aux : BitVec 128} (hr : Resting s) (hs : After tap aux s s')
    (he' : s'.bb_ena = false) : s'.hist = s.hist := by
  rw [hist_eq hs hr.ena he', hr.serDes_eq hs, JtagSerDesCore.Reg.clock, if_pos rfl]

theorem Resting.passes (hr : Resting s) (hp : Passes tap s s') :
    Resting s' ∧ s'.hist = s.hist ∧ ∀ k < 64, s'.auxIn.getLsbD k = s.auxIn.getLsbD k := by
  obtain ⟨a, hs⟩ := hp
  have hena : s'.bb_ena = false := by rw [Board.bb_ena, hs.auxIn, auxOut_ena, hr.ena]
  refine ⟨⟨⟨hs.running, hr.val_next hs, hr.serDes_eq hs ▸ hr.idle⟩, hena⟩,
    hr.hist_kept hs hena, fun k hk => ?_⟩
  rw [hs.auxIn, auxOut_low (by omega)]

theorem Resting.write (hr : Resting s) {idx : ℕ} (h1 : 4 ≤ idx) (h2 : idx < 6) {v : BitVec 32}
    (hw : After tap (written (s.auxOut tap a) idx v) s s') :
    Resting s' ∧ s'.hist = s.hist ∧ ∀ k < 64, s'.auxIn.getLsbD k =
      if k / 32 = idx - 4 then v.getLsbD (k % 32) else s.auxIn.getLsbD k := by
  have hhigh : ∀ k < 128, 64 ≤ k → s'.auxIn.getLsbD k = (s.auxOut tap a).getLsbD k := by
    intro k hk hle
    rw [hw.auxIn, getLsbD_written hk, if_neg (by omega)]
  have hena : s'.bb_ena = false := by
    rw [Board.bb_ena, hhigh 95 (by decide) (by decide), auxOut_ena, hr.ena]
  have hval : s'.serDesInVal = false := by
    rw [Board.serDesInVal, hhigh 72 (by decide) (by decide), auxOut_run, hr.val, Bool.false_and]
  refine ⟨⟨⟨hw.running, hval, hr.serDes_eq hw ▸ hr.idle⟩, hena⟩, hr.hist_kept hw hena,
    fun k hk => ?_⟩
  have hro : ∀ k < 64, (AUX_RO_M_F false).getLsbD k = false := by decide
  rw [hw.auxIn, getLsbD_written (by omega), hro k hk, if_neg Bool.false_ne_true,
    auxOut_low (by omega)]
  by_cases hin : k / 32 = idx - 4
  · rw [if_pos hin, if_pos (by omega)]
    congr 1
    omega
  · rw [if_neg hin, if_neg (by omega)]

/-- A board at rest with its edges of TCK and the words for TMS and TDI. -/
structure Holds (h : List Edge) (x : ℕ → Bool) (s : Board) : Prop where
  rests : Resting s
  hist : s.hist = h
  words : ∀ k < 64, s.auxIn.getLsbD k = x k

theorem Resting.holds (hr : Resting s) : Holds s.hist s.auxIn.getLsbD s :=
  ⟨hr, rfl, fun _ _ => rfl⟩

variable (tap) in
theorem Holds.steady {x : ℕ → Bool} : Steady tap (Holds h x) where
  running _ hs := hs.rests.running
  passes _ _ hs hp := by
    obtain ⟨hrests, hhist, hwords⟩ := hs.rests.passes hp
    exact ⟨hrests, hhist.trans hs.hist, fun k hk => (hwords k hk).trans (hs.words k hk)⟩

variable (tap) in
theorem Holds.word {x : ℕ → Bool} {b : Bus} (hb : Holds h x b.board) (m : Master cs) {idx : ℕ}
    (h1 : 4 ≤ idx) (h2 : idx < 6) (v : BitVec 32) :
    Holds h (fun k => if k / 32 = idx - 4 then v.getLsbD (k % 32) else x k)
      ((m.registers tap).wr idx v b).board := by
  obtain ⟨s, a, hs, hafter⟩ := (Holds.steady tap).wr m hb h1 (by omega) v
  obtain ⟨hrests, hhist, hwords⟩ := hs.rests.write h1 h2 hafter
  refine ⟨hrests, hhist.trans hs.hist, fun k hk => ?_⟩
  rw [hwords k hk, hs.words k hk]

/-- The serializer is about to take the words of a call. -/
structure Armed (c : Call) (h : List Edge) (s : Board) : Prop where
  running : Running s.fifo
  ena : s.bb_ena = false
  val : s.serDesInVal = true
  idle : SerDesIdle s.serDes
  hist : s.hist = h
  numBits : (s.auxIn.extractLsb' 64 5).toNat = c.nbits - 1
  tms : s.auxIn.extractLsb' 0 32 = c.tms
  tdi : s.auxIn.extractLsb' 32 32 = c.tdi

/-- What `xfer32sdes` writes to CSR. -/
def startWord (csr : BitVec 32) (nbits : ℕ) : BitVec 32 :=
  (csr &&& ~~~SDES_CSR_LRMSK) ||| (BitVec.ofNat 32 (nbits - 1) <<< SDES_CSR_LENS) ||| SDES_CSR_RUN

theorem getLsbD_startWord (csr : BitVec 32) (nbits : ℕ) {k : ℕ} (hk : k < 32) :
    (startWord csr nbits).getLsbD k =
      ((csr.getLsbD k && decide (12 ≤ k)) || (nbits - 1).testBit k || decide (k = 8)) := by
  have hmask : ∀ k < 32, SDES_CSR_LRMSK.getLsbD k = !decide (12 ≤ k) := by decide
  have hrun : ∀ k < 32, SDES_CSR_RUN.getLsbD k = decide (k = 8) := by decide
  have hshift : SDES_CSR_LENS = 0 := rfl
  simp only [startWord, hshift, BitVec.shiftLeft_zero, BitVec.getLsbD_or, BitVec.getLsbD_and,
    BitVec.getLsbD_not, BitVec.getLsbD_ofNat, hmask k hk, hrun k hk, hk, decide_true,
    Bool.true_and, Bool.not_not]

theorem Resting.arm (hr : Resting s) {csr : BitVec 32} (hcsr : csr.getLsbD 31 = false)
    (hwords : ∀ k < 64, s.auxIn.getLsbD k =
      if k / 32 = 0 then c.tms.getLsbD (k % 32) else c.tdi.getLsbD (k % 32))
    (hw : After tap (written (s.auxOut tap a) SDES_CSR_IDX (startWord csr c.nbits)) s s') :
    Armed c s.hist s' := by
  have hidx : 32 * (SDES_CSR_IDX - 4) = 64 := rfl
  have hlt : c.nbits - 1 < 2 ^ 5 := by
    have := c.le
    omega
  -- the write of the CSR leaves the words for TMS and TDI as they are
  have hlow : ∀ k < 64, s'.auxIn.getLsbD k = s.auxIn.getLsbD k := by
    intro k hk
    rw [hw.auxIn, getLsbD_written (by omega), hidx, if_neg (by omega), auxOut_low (by omega)]
  have hena : s'.bb_ena = false := by
    rw [Board.bb_ena, csr_written hw (by decide : 31 < 32) (by decide),
      getLsbD_startWord _ _ (by decide), hcsr, Nat.testBit_lt_two_pow (hlt.trans_le (by decide))]
    rfl
  refine ⟨hw.running, hena, ?_, hr.serDes_eq hw ▸ hr.idle, hr.hist_kept hw hena, ?_, ?_, ?_⟩
  · rw [Board.serDesInVal, csr_written hw (by decide : 8 < 32) (by decide),
      getLsbD_startWord _ _ (by decide)]
    simp
  -- the number of bits less one, which fits into its five bits
  · have hnum : s'.auxIn.extractLsb' 64 5 = BitVec.ofNat 5 (c.nbits - 1) := by
      apply BitVec.eq_of_getLsbD_eq
      intro k hk
      have hro : ∀ k < 5, (AUX_RO_M_F false).getLsbD (64 + k) = false := by decide
      have h12 : ¬ 12 ≤ k := by omega
      have h8 : ¬ k = 8 := by omega
      rw [BitVec.getLsbD_extractLsb', csr_written hw (by omega) (hro k hk),
        getLsbD_startWord _ _ (by omega), BitVec.getLsbD_ofNat]
      simp [h12, h8]
    rw [hnum, BitVec.toNat_ofNat, Nat.mod_eq_of_lt hlt]
  · apply BitVec.eq_of_getLsbD_eq
    intro k hk
    rw [BitVec.getLsbD_extractLsb', hlow _ (by omega), hwords _ (by omega), if_pos (by omega)]
    simp [hk, Nat.mod_eq_of_lt hk]
  · apply BitVec.eq_of_getLsbD_eq
    intro k hk
    have hmod : (32 + k) % 32 = k := by omega
    rw [BitVec.getLsbD_extractLsb', hlow _ (by omega), hwords _ (by omega), if_neg (by omega), hmod]
    simp [hk]

/-- The serializer works on a call, and BSY is set. -/
structure Busy (tap : Tap) (c : Call) (h : List Edge) (pos : Pos) (s : Board) : Prop where
  running : Running s.fifo
  ena : s.bb_ena = false
  val : s.serDesInVal = false
  bsy : s.auxIn.getLsbD 73 = true
  serDes : At (c.job h) tap CLK_DIV2_G pos s.serDes s.hist
  taken : pos.taken = 1
  given : pos.given = 0
  goes : pos.waits = false

/-- The call is done: BSY is clear and TDO is there. -/
structure Done (tap : Tap) (c : Call) (h : List Edge) (s : Board) : Prop where
  rests : Resting s
  bsy : s.auxIn.getLsbD 73 = false
  hist : s.hist = h ++ edgesOf c.bits
  tdo : s.tdoReg >>> (32 - c.nbits) = c.tdo tap h

theorem waits_next (job : Job 32) (pos : Pos) (valid : Bool) :
    (pos.next job CLK_DIV2_G valid true).waits = false := by
  cases pos with
  | idle j out => cases valid <;> rfl
  | low j f div pre ack =>
    simp only [Pos.next]
    split_ifs <;> rfl
  | high j f div out =>
    simp only [Pos.next]
    split_ifs <;> rfl
  | tail j div =>
    simp only [Pos.next]
    split_ifs <;> rfl
  | waiMore j => rfl
  | waiEnd j => rfl

theorem Armed.passes (ha : Armed c h s) (hp : Passes tap s s') :
    Busy tap c h (.low 0 0 (CLK_DIV2_G - 1) false false) s' := by
  obtain ⟨a, hs⟩ := hp
  have hena : s'.bb_ena = false := by rw [Board.bb_ena, hs.auxIn, auxOut_ena, ha.ena]
  have hfed : Fed (c.job h) (.idle 0 false) (s.serDesIn tap) := by
    intro _ _
    constructor
    · exact congrArg₂ Prod.mk ha.tms ha.tdi
    · have hpos := c.pos
      have hnum := ha.numBits
      have hjob := c.numBits_job h
      simp only [Board.serDesIn, Pos.taken]
      omega
  have hat : At (c.job h) tap CLK_DIV2_G (.idle 0 false) s.serDes s.hist :=
    ha.hist ▸ ha.idle.at_job
  have hnext := at_next hs ha.ena hena hat hfed
  rw [ha.val] at hnext
  refine ⟨hs.running, hena, ?_, ?_, hnext, rfl, rfl, rfl⟩
  · rw [Board.serDesInVal, hs.auxIn, auxOut_run, ha.idle.iReady, Bool.not_true, Bool.and_false]
  · rw [hs.auxIn, auxOut_bsy, ha.val, Bool.true_or]

theorem idle_of_given {pos : Pos} (ht : pos.taken = 1) (hg : pos.given = 1) :
    pos = .idle 1 false := by
  cases pos with
  | idle j out =>
    obtain rfl : j = 1 := ht
    cases out with
    | false => rfl
    | true => cases hg
  | low | high | tail | waiMore | waiEnd =>
    simp only [Pos.taken, Pos.given] at ht hg
    omega

/-- The serializer is held up only when it has nothing to do. -/
theorem stuck_of_given {pos : Pos} (ht : pos.taken = 1) (hg : pos.given = 0) :
    pos.stuck false true = false := by
  cases pos with
  | idle j out =>
    obtain rfl : j = 1 := ht
    cases out with
    | false => cases hg
    | true => rfl
  | low | high | tail | waiMore | waiEnd => rfl

theorem Busy.passes {pos : Pos} (hb : Busy tap c h pos s) (hp : Passes tap s s') :
    Done tap c h s' ∨ ∃ pos', Busy tap c h pos' s' ∧
      pos'.rank (c.job h) CLK_DIV2_G < pos.rank (c.job h) CLK_DIV2_G := by
  obtain ⟨a, hs⟩ := hp
  have hena : s'.bb_ena = false := by rw [Board.bb_ena, hs.auxIn, auxOut_ena, hb.ena]
  have hval : s'.serDesInVal = false := by
    rw [Board.serDesInVal, hs.auxIn, auxOut_run, hb.val, Bool.false_and]
  have hbsy : s'.auxIn.getLsbD 73 = !s.serDes.oValid := by
    rw [hs.auxIn, auxOut_bsy, hb.val, hb.bsy, Bool.false_or, Bool.true_and]
  have hfed : Fed (c.job h) pos (s.serDesIn tap) :=
    fun hv => absurd (hb.val.symm.trans hv) (by simp)
  have hnext := at_next hs hb.ena hena hb.serDes hfed
  rw [hb.val] at hnext
  have hgiven := hb.serDes.given_next false true
  have htaken : (pos.next (c.job h) CLK_DIV2_G false true).taken = _ :=
    Pos.taken_next pos false true
  have hrank := hb.serDes.rank_next hnext
  rw [hb.goes, hb.given, ← hb.serDes.oValid_eq] at hgiven
  rw [hb.taken, Bool.false_and] at htaken
  -- the receiver is always ready, so nothing but the word shown ends the wait
  rw [stuck_of_given hb.taken hb.given] at hrank
  cases hov : s.serDes.oValid with
  | true =>
    -- the word is collected, BSY falls, and the serializer is idle again
    left
    rw [hov] at hgiven
    rw [idle_of_given htaken hgiven] at hnext
    have hshow := (hb.serDes.shows (hb.serDes.oValid_eq.symm.trans hov)).2
    rw [hb.given] at hshow
    have htdo := hshow.shifted
    rw [c.numBits_job] at htdo
    refine ⟨⟨⟨hs.running, hval, .of_at hnext⟩, hena⟩, ?_, ?_, ?_⟩
    · rw [hbsy, hov, Bool.not_true]
    · rw [hist_of_idle hnext, c.histOf_job]
    · rw [Board.tdoReg, hs.auxIn, auxOut_tdoVal, if_pos hov, htdo]
      exact c.tdoWord_job h
  | false =>
    rw [hov] at hgiven
    refine Or.inr ⟨_, ⟨hs.running, hena, hval, ?_, hnext, htaken, hgiven, waits_next _ _ _⟩, ?_⟩
    · rw [hbsy, hov, Bool.not_false]
    · rw [Bool.not_false, Bool.toNat_true] at hrank
      omega

/-- What is there stays there. -/
theorem Done.passes (hd : Done tap c h s) (hp : Passes tap s s') : Done tap c h s' := by
  obtain ⟨hrests, hhist, _⟩ := hd.rests.passes hp
  obtain ⟨a, hs⟩ := hp
  refine ⟨hrests, ?_, hhist.trans hd.hist, ?_⟩
  · rw [hs.auxIn, auxOut_bsy, hd.rests.val, hd.bsy]
    rfl
  · rw [Board.tdoReg, hs.auxIn, auxOut_tdoVal, hd.rests.idle.oValid, if_neg Bool.false_ne_true]
    exact hd.tdo

theorem Done.steady : Steady tap (Done tap c h) where
  running _ hs := hs.rests.running
  passes _ _ hs hp := hs.passes hp

/-- A call was asked for; it takes at most `n` more cycles. -/
def Serving (tap : Tap) (c : Call) (h : List Edge) (n : ℕ) (s : Board) : Prop :=
  (Armed c h s ∧ (Pos.idle 0 false).rank (c.job h) CLK_DIV2_G ≤ n) ∨
    (∃ pos, Busy tap c h pos s ∧ pos.rank (c.job h) CLK_DIV2_G ≤ n) ∨ Done tap c h s

theorem Serving.running {n : ℕ} (hs : Serving tap c h n s) : Running s.fifo := by
  rcases hs with ⟨ha, _⟩ | ⟨pos, hb, _⟩ | hd
  · exact ha.running
  · exact hb.running
  · exact hd.rests.running

/-- While TDO is not there, BSY is set. -/
theorem Serving.passes {n : ℕ} (hs : Serving tap c h n s) (hp : Passes tap s s') :
    Done tap c h s' ∨ s'.auxIn.getLsbD 73 = true ∧ ∃ k < n, Serving tap c h k s' := by
  rcases hs with ⟨ha, hn⟩ | ⟨pos, hb, hn⟩ | hd
  · have hb := ha.passes hp
    have hpos := c.pos
    refine Or.inr ⟨hb.bsy, _, ?_, Or.inr (Or.inl ⟨_, hb, le_rfl⟩)⟩
    simp only [Pos.rank, Call.job, CLK_DIV2_G, Bool.toNat_false] at hn ⊢
    omega
  · rcases hb.passes hp with hd | ⟨pos', hb', hlt⟩
    · exact Or.inl hd
    · exact Or.inr ⟨hb'.bsy, _, hlt.trans_le hn, Or.inr (Or.inl ⟨pos', hb', le_rfl⟩)⟩
  · exact Or.inl (hd.passes hp)

theorem Serving.mono {n k : ℕ} (hs : Serving tap c h k s) (hk : k ≤ n) :
    Serving tap c h n s := by
  rcases hs with ⟨ha, hn⟩ | ⟨pos, hb, hn⟩ | hd
  · exact Or.inl ⟨ha, hn.trans hk⟩
  · exact Or.inr (Or.inl ⟨pos, hb, hn.trans hk⟩)
  · exact Or.inr (Or.inr hd)

theorem Serving.steady (n : ℕ) : Steady tap (Serving tap c h n) where
  running _ hs := hs.running
  passes _ _ hs hp := by
    rcases hs.passes hp with hd | ⟨_, k, hk, hs'⟩
    · exact Or.inr (Or.inr hd)
    · exact hs'.mono hk.le

variable {m : Master cs} {t : Transfer Bus} {b : Bus}

theorem Serving.read {n : ℕ} (hs : Serving tap c h n b.board) :
    let r := (m.registers tap).rd SDES_CSR_IDX b
    decide (r.1 &&& SDES_CSR_BSY = 0) = true ∧ Done tap c h r.2.board ∨
      decide (r.1 &&& SDES_CSR_BSY = 0) = false ∧ ∃ k < n, Serving tap c h k r.2.board := by
  intro r
  obtain ⟨s, hwait, hpass, hval⟩ :=
    (Serving.steady n).rd m hs (by decide : 4 ≤ SDES_CSR_IDX) (by decide)
  have hbsy : SDES_CSR_BSY = BitVec.twoPow 32 9 := rfl
  have hbit : r.1 &&& SDES_CSR_BSY = 0 ↔ r.2.board.auxIn.getLsbD 73 = false := by
    have hread : r.1.getLsbD 9 = r.2.board.auxIn.getLsbD 73 :=
      (congrArg (fun w => w.getLsbD 9) hval).trans (getLsbD_csr (by decide))
    rw [hbsy, ← not_iff_not, Bool.not_eq_false, ← hread]
    exact and_twoPow_ne_zero (by decide)
  rw [decide_eq_true_iff, decide_eq_false_iff_not, hbit]
  rcases hwait.passes hpass with hd | ⟨hset, k, hk, hs'⟩
  · exact Or.inl ⟨hd.bsy, hd⟩
  · refine Or.inr ⟨?_, k, hk, hs'⟩
    rw [Bool.not_eq_false]
    exact hset

/-- The accesses of `xfer32sdes` before it polls. -/
def request {σ : Type} (regs : Registers σ) (c : Call) (t : Transfer σ) : Transfer σ :=
  let (csr, t) := i32 regs SDES_CSR_IDX t
  let t := o32 regs SDES_TMS_IDX c.tms t
  let t := o32 regs SDES_TDI_IDX c.tdi t
  o32 regs SDES_CSR_IDX (startWord csr c.nbits) t

theorem xfer32sdes_eq {σ ε : Type} (regs : Registers σ) (c : Call) (fuel : ℕ) (t : Transfer σ) :
    (xfer32sdes regs c.tms c.tdi c.nbits fuel t : Run ε (BitVec 32 × Transfer σ)) = do
      let (_, t) ← poll regs SDES_CSR_IDX (fun w => w &&& SDES_CSR_BSY = 0) fuel (request regs c t)
      let (tdo, t) := i32 regs SDES_TDO_IDX t
      return (tdo >>> (32 - c.nbits), t) := rfl

variable (tap c m) in
theorem request_spec (hr : Resting t.dev.board) :
    Armed c t.dev.board.hist (request (m.registers tap) c t).dev.board := by
  have hcsr : 4 ≤ SDES_CSR_IDX ∧ SDES_CSR_IDX < 8 := by decide
  have hstart := (Holds.steady tap).rd m hr.holds hcsr.1 hcsr.2
  have hkept := (Holds.steady tap).rd_keeps m hr.holds hcsr.1 hcsr.2
  obtain ⟨_, _, _, hval⟩ := hstart
  have hena : ((m.registers tap).rd SDES_CSR_IDX t.dev).1.getLsbD 31 = false := by
    rw [hval, getLsbD_csr (by decide)]
    exact hkept.rests.ena
  have htms := hkept.word tap m (by decide : 4 ≤ SDES_TMS_IDX) (by decide) c.tms
  have htdi := htms.word tap m (by decide : 4 ≤ SDES_TDI_IDX) (by decide) c.tdi
  obtain ⟨s, a, hs, hafter⟩ := (Holds.steady tap).wr m htdi hcsr.1 hcsr.2
    (startWord ((m.registers tap).rd SDES_CSR_IDX t.dev).1 c.nbits)
  have harm := hs.rests.arm (c := c) hena (fun k hk => ?_) hafter
  · rw [hs.hist] at harm
    exact harm
  · have htms : SDES_TMS_IDX - 4 = 0 := rfl
    have htdi : SDES_TDI_IDX - 4 = 1 := rfl
    rw [hs.words k hk, htms, htdi]
    by_cases hzero : k / 32 = 0
    · rw [if_neg (by omega), if_pos hzero, if_pos hzero]
    · rw [if_pos (by omega), if_neg hzero]

variable (tap m) in
theorem Done.read (hd : Done tap c h t.dev.board) :
    Done tap c h (i32 (m.registers tap) SDES_TDO_IDX t).2.dev.board ∧
      (i32 (m.registers tap) SDES_TDO_IDX t).1 =
        (i32 (m.registers tap) SDES_TDO_IDX t).2.dev.board.tdoReg := by
  obtain ⟨s, hs, hpass, hval⟩ :=
    Done.steady.rd m hd (by decide : 4 ≤ SDES_TDO_IDX) (by decide)
  exact ⟨hs.passes hpass, hval⟩

/-- The number of reads of BSY that are enough for any call. -/
def enoughReads : ℕ := (3 * CLK_DIV2_G + 5) * 32 + 1

variable (tap) in
theorem Armed.serving (ha : Armed c h s) : Serving tap c h ((3 * CLK_DIV2_G + 5) * 32) s := by
  refine Or.inl ⟨ha, ?_⟩
  have := c.le
  simp only [Pos.rank, Call.job, CLK_DIV2_G, Bool.toNat_false]
  omega

variable (tap c m) in
theorem xfer32sdes_spec {ε : Type} (hr : Resting t.dev.board) {fuel : ℕ}
    (hfuel : enoughReads ≤ fuel) :
    ∃ t', (xfer32sdes (m.registers tap) c.tms c.tdi c.nbits fuel t :
          Run ε (BitVec 32 × Transfer Bus)) =
        Run.returned (c.tdo tap t.dev.board.hist, t') ∧ Resting t'.dev.board ∧
      t'.dev.board.hist = t.dev.board.hist ++ edgesOf c.bits := by
  have hserving := (request_spec tap c m hr).serving tap
  obtain ⟨w, dev, hpoll, hdone⟩ : ∃ w dev, (poll (m.registers tap) SDES_CSR_IDX
      (fun w => w &&& SDES_CSR_BSY = 0) fuel (request (m.registers tap) c t) :
        Run ε (BitVec 32 × Transfer Bus)) =
      Run.returned (w, { request (m.registers tap) c t with dev := dev }) ∧
        Done tap c t.dev.board.hist dev.board :=
    poll_within (fun n (b : Bus) => Serving tap c t.dev.board.hist n b.board)
      (fun (b : Bus) => Done tap c t.dev.board.hist b.board) (fun _ _ hs => hs.read) hserving hfuel
  rw [xfer32sdes_eq, hpoll, returned_bind]
  generalize ht1 : ({ request (m.registers tap) c t with dev := dev } : Transfer Bus) = t1
  have hdone1 : Done tap c t.dev.board.hist t1.dev.board := ht1 ▸ hdone
  obtain ⟨hdone2, htdo⟩ := hdone1.read tap m
  refine ⟨(i32 (m.registers tap) SDES_TDO_IDX t1).2, ?_, hdone2.rests, hdone2.hist⟩
  rw [← hdone2.tdo, ← htdo]
  rfl

/-- The device after `n` reads of BSY. -/
def polled {σ : Type} (regs : Registers σ) (n : ℕ) (s : σ) : σ :=
  (fun s => (regs.rd SDES_CSR_IDX s).2)^[n] s

/-- What is read for the `n`-th time after a request, and the device then. -/
def answer {σ : Type} (regs : Registers σ) (n : ℕ) (c : Call) (t : Transfer σ) : BitVec 32 × σ :=
  regs.rd SDES_CSR_IDX (polled regs n (request regs c t).dev)

variable (tap c m) in
/-- However often and whenever BSY is read, it is not clear before TDO is there. -/
theorem answer_spec (hr : Resting t.dev.board) {n : ℕ}
    (hclear : (answer (m.registers tap) n c t).1 &&& SDES_CSR_BSY = 0) :
    (answer (m.registers tap) n c t).2.board.tdoReg >>> (32 - c.nbits) =
      c.tdo tap t.dev.board.hist := by
  have hserving : ∀ n, ∃ k, Serving tap c t.dev.board.hist k
      (polled (m.registers tap) n (request (m.registers tap) c t).dev).board := by
    intro n
    induction n with
    | zero => exact ⟨_, (request_spec tap c m hr).serving tap⟩
    | succ n ih =>
      obtain ⟨k, hk⟩ := ih
      rw [polled, Function.iterate_succ_apply']
      rcases hk.read (m := m) with ⟨_, hd⟩ | ⟨_, k', _, hk'⟩
      · exact ⟨k, Or.inr (Or.inr hd)⟩
      · exact ⟨k', hk'⟩
  obtain ⟨k, hk⟩ := hserving n
  rcases hk.read (m := m) with ⟨_, hd⟩ | ⟨hset, _⟩
  · exact hd.tdo
  · exact absurd hclear (of_decide_eq_false hset)

/-- Calls of `xfer32sdes`, one after the other. -/
def calls32sdes {σ ε : Type} (regs : Registers σ) (fuel : ℕ) :
    List Call → Transfer σ → Run ε (List (BitVec 32) × Transfer σ)
  | [], t => return ([], t)
  | c :: calls, t => do
    let (tdo, t) ← xfer32sdes regs c.tms c.tdi c.nbits fuel t
    let (tdos, t) ← calls32sdes regs fuel calls t
    return (tdo :: tdos, t)

variable (tap m) in
theorem calls32sdes_spec {ε : Type} (calls : List Call) (hr : Resting t.dev.board) {fuel : ℕ}
    (hfuel : enoughReads ≤ fuel) :
    ∃ t', (calls32sdes (m.registers tap) fuel calls t :
          Run ε (List (BitVec 32) × Transfer Bus)) =
        Run.returned (replies tap t.dev.board.hist calls, t') ∧ Resting t'.dev.board ∧
      t'.dev.board.hist = t.dev.board.hist ++ edgesOf (calls.flatMap Call.bits) := by
  induction calls generalizing t with
  | nil => exact ⟨t, rfl, hr, (List.append_nil _).symm⟩
  | cons c calls ih =>
    obtain ⟨t1, hcall, hr1, hhist⟩ := xfer32sdes_spec tap c m (ε := ε) hr hfuel
    obtain ⟨t2, hcalls, hr2, hhist2⟩ := ih hr1
    refine ⟨t2, ?_, hr2, ?_⟩
    · rw [calls32sdes, hcall, returned_bind, replies, ← hhist]
      simp only [hcalls, returned_bind, pure_eq_returned]
    · rw [hhist2, hhist, List.flatMap_cons, edgesOf_append, List.append_assoc]

end XvcSupport.JtagDriverTmemFifo
