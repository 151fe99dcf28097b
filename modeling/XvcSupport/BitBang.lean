import XvcSupport.Tmem2BSCANWrapper
import XvcSupport.RegisterDrivers
import XvcSupport.WellFormed

namespace XvcSupport.JtagDriverTmemFifo

open AxisToJtag Axis2TmemFifo Tmem2BSCANWrapper RegisterDriver

/-- The arguments of `xfer32bb` and `xfer32sdes`. -/
structure Call where
  tms : BitVec 32
  tdi : BitVec 32
  nbits : ℕ
  pos : 1 ≤ nbits
  le : nbits ≤ 32

namespace Call

variable (c : Call)

def bits : List (Bool × Bool) :=
  (List.range c.nbits).map fun i => (c.tms.getLsbD i, c.tdi.getLsbD i)

/-- The samples of TDO after the edges `h`, the first in bit 0. -/
def tdo (tap : Tap) (h : List Edge) : BitVec 32 := tdoWord 32 c.nbits (tdoAt tap h c.bits) 0

@[simp] theorem bits_length : c.bits.length = c.nbits := by simp [bits]

theorem bits_getD {i : ℕ} (hi : i < c.nbits) :
    c.bits.getD i (false, false) = (c.tms.getLsbD i, c.tdi.getLsbD i) := by
  rw [List.getD_eq_getElem _ _ (by simpa using hi)]
  simp [bits]

theorem bits_take_succ {i : ℕ} (hi : i < c.nbits) :
    c.bits.take (i + 1) = c.bits.take i ++ [(c.tms.getLsbD i, c.tdi.getLsbD i)] := by
  rw [List.take_succ_eq_append_getElem (by simpa using hi)]
  simp [bits]

theorem tdoAt_eq {tap : Tap} {h : List Edge} {i : ℕ} (hi : i < c.nbits) :
    tdoAt tap h c.bits i =
      tap (h ++ edgesOf (c.bits.take i)) (c.tms.getLsbD i) (c.tdi.getLsbD i) := by
  rw [tdoAt, c.bits_getD hi]

theorem getLsbD_tdo {tap : Tap} {h : List Edge} {k : ℕ} (hk : k < 32) :
    (c.tdo tap h).getLsbD k = (decide (k < c.nbits) && tdoAt tap h c.bits k) := by
  simp [tdo, tdoWord, hk]

end Call

/-- What a sequence of calls returns. -/
def replies (tap : Tap) : List Edge → List Call → List (BitVec 32)
  | _, [] => []
  | h, c :: calls => c.tdo tap h :: replies tap (h ++ edgesOf c.bits) calls

/-- Software drives the pins. -/
structure BitBang (s : Board) : Prop where
  running : Running s.fifo
  ena : s.bb_ena = true

/-- The edges of TCK once it is low. -/
def lowered (s : Board) : List Edge :=
  if s.tck then s.hist ++ [⟨false, s.tms, s.tdi⟩] else s.hist

/-- The pins of a board, and what they were before. -/
def pinsOf (s : Board) : Bool × Bool × Bool × List Edge := (s.tck, s.tms, s.tdi, s.hist)

variable {cs : BitVec 2} {tap : Tap} {s s' : Board} {a : Around}

theorem rises_lowered (s : Board) : rises (lowered s) = rises s.hist := by
  unfold lowered
  split_ifs
  · rw [rises_append]
    simp [rises]
  · rfl

theorem hist_of_lowered {aux : BitVec 128} (hs : After tap aux s s') (h : s'.tck = false) :
    s'.hist = lowered s := by
  rw [hs.hist, h, lowered]
  cases s.tck <;> simp

theorem csr_written {v : BitVec 32} {n : ℕ}
    (hw : After tap (written (s.auxOut tap a) SDES_CSR_IDX v) s s') (hn : n < 32)
    (hro : (AUX_RO_M_F false).getLsbD (64 + n) = false) :
    s'.auxIn.getLsbD (64 + n) = v.getLsbD n := by
  have hidx : 32 * (SDES_CSR_IDX - 4) = 64 := rfl
  rw [hw.auxIn, getLsbD_written (by omega), hidx, if_pos (by omega), hro,
    if_neg Bool.false_ne_true, Nat.add_sub_cancel_left]

theorem getLsbD_csr {x : BitVec 128} {n : ℕ} (hn : n < 32) :
    (x.extractLsb' (32 * (SDES_CSR_IDX - 4)) 32).getLsbD n = x.getLsbD (64 + n) := by
  rw [BitVec.getLsbD_extractLsb', decide_eq_true hn, Bool.true_and]
  rfl

namespace BitBang

theorem tck_eq (h : BitBang s) : s.tck = s.auxIn.getLsbD 80 := by
  rw [Board.tck, h.ena, muxSlv, Bool.and_true, Bool.not_true, Bool.and_false, Bool.or_false]

theorem tms_eq (h : BitBang s) : s.tms = s.auxIn.getLsbD 81 := by
  rw [Board.tms, h.ena, muxSlv, Bool.and_true, Bool.not_true, Bool.and_false, Bool.or_false]

theorem tdi_eq (h : BitBang s) : s.tdi = s.auxIn.getLsbD 82 := by
  rw [Board.tdi, h.ena, muxSlv, Bool.and_true, Bool.not_true, Bool.and_false, Bool.or_false]

/-- The pins stay as they are until the next write. -/
theorem passes (h : BitBang s) (hp : Passes tap s s') : BitBang s' ∧ pinsOf s' = pinsOf s := by
  obtain ⟨a, hafter⟩ := hp
  have hbang : BitBang s' := by
    refine ⟨hafter.running, ?_⟩
    rw [Board.bb_ena, hafter.auxIn, auxOut_ena, h.ena]
  have htck : s'.tck = s.tck := by
    rw [hbang.tck_eq, h.tck_eq, hafter.auxIn, auxOut_pins (by decide) (by decide)]
  have htms : s'.tms = s.tms := by
    rw [hbang.tms_eq, h.tms_eq, hafter.auxIn, auxOut_pins (by decide) (by decide)]
  have htdi : s'.tdi = s.tdi := by
    rw [hbang.tdi_eq, h.tdi_eq, hafter.auxIn, auxOut_pins (by decide) (by decide)]
  refine ⟨hbang, ?_⟩
  rw [pinsOf, hafter.hist, if_pos htck, htck, htms, htdi, pinsOf]

theorem of_write {v : BitVec 32} (hena : v.getLsbD 31 = true)
    (hw : After tap (written (s.auxOut tap a) SDES_CSR_IDX v) s s') :
    BitBang s' ∧ s'.tck = v.getLsbD 16 ∧ s'.tms = v.getLsbD 17 ∧ s'.tdi = v.getLsbD 18 := by
  have hbang : BitBang s' :=
    ⟨hw.running, (csr_written hw (by decide : 31 < 32) (by decide)).trans hena⟩
  refine ⟨hbang, ?_, ?_, ?_⟩
  · rw [hbang.tck_eq, csr_written hw (by decide : 16 < 32) (by decide)]
  · rw [hbang.tms_eq, csr_written hw (by decide : 17 < 32) (by decide)]
  · rw [hbang.tdi_eq, csr_written hw (by decide : 18 < 32) (by decide)]

variable {m : Master cs} {t : Transfer Bus} {v : BitVec 32}

variable (tap) in
theorem steady (p : Bool × Bool × Bool × List Edge) :
    Steady tap fun s => BitBang s ∧ pinsOf s = p where
  running _ hs := hs.1.running
  passes _ _ hs hp := ⟨(hs.1.passes hp).1, (hs.1.passes hp).2.trans hs.2⟩

theorem lowered_eq (h : pinsOf s = pinsOf s') : lowered s = lowered s' := by
  simp only [pinsOf, Prod.mk.injEq] at h
  rw [lowered, lowered, h.1, h.2.1, h.2.2.1, h.2.2.2]

variable (m tap) in
theorem read (h : BitBang t.dev.board) :
    BitBang (i32 (m.registers tap) SDES_CSR_IDX t).2.dev.board ∧
      pinsOf (i32 (m.registers tap) SDES_CSR_IDX t).2.dev.board = pinsOf t.dev.board ∧
      (i32 (m.registers tap) SDES_CSR_IDX t).1.getLsbD 31 = true ∧
      (i32 (m.registers tap) SDES_CSR_IDX t).1.getLsbD 19 =
        tap t.dev.board.hist t.dev.board.tms t.dev.board.tdi := by
  obtain ⟨s, ⟨hs, hpins⟩, hpass, hval⟩ :=
    (steady tap (pinsOf t.dev.board)).rd m ⟨h, rfl⟩ (by decide : 4 ≤ SDES_CSR_IDX) (by decide)
  obtain ⟨hbang, hpins'⟩ := hs.passes hpass
  obtain ⟨a, hafter⟩ := hpass
  have hbit : ∀ n < 32, (i32 (m.registers tap) SDES_CSR_IDX t).1.getLsbD n =
      (s.auxOut tap a).getLsbD (64 + n) := by
    intro n hn
    rw [← hafter.auxIn, ← getLsbD_csr hn, ← hval]
    rfl
  simp only [pinsOf, Prod.mk.injEq] at hpins
  refine ⟨hbang, hpins'.trans (by simp [pinsOf, hpins]), ?_, ?_⟩
  · rw [hbit 31 (by decide), auxOut_ena, hs.ena]
  · rw [hbit 19 (by decide), auxOut_tdo, Board.tdo, hpins.2.1, hpins.2.2.1, hpins.2.2.2]

variable (m tap) in
theorem lower (h : BitBang t.dev.board) (hena : v.getLsbD 31 = true) (htck : v.getLsbD 16 = false) :
    BitBang (o32 (m.registers tap) SDES_CSR_IDX v t).dev.board ∧
      pinsOf (o32 (m.registers tap) SDES_CSR_IDX v t).dev.board =
        (false, v.getLsbD 17, v.getLsbD 18, lowered t.dev.board) := by
  obtain ⟨s, a, ⟨hs, hpins⟩, hafter⟩ :=
    (steady tap (pinsOf t.dev.board)).wr m ⟨h, rfl⟩ (by decide : 4 ≤ SDES_CSR_IDX) (by decide) v
  obtain ⟨hbang, h16, h17, h18⟩ := of_write hena hafter
  refine ⟨hbang, ?_⟩
  have hlow := h16.trans htck
  rw [← lowered_eq hpins]
  simp only [pinsOf, Prod.mk.injEq]
  exact ⟨hlow, h17, h18, hist_of_lowered hafter hlow⟩

variable (m tap) in
theorem raise (h : BitBang t.dev.board) (hena : v.getLsbD 31 = true) (htck : v.getLsbD 16 = true)
    {h' : List Edge} (hpins : pinsOf t.dev.board = (false, v.getLsbD 17, v.getLsbD 18, h')) :
    BitBang (o32 (m.registers tap) SDES_CSR_IDX v t).dev.board ∧
      lowered (o32 (m.registers tap) SDES_CSR_IDX v t).dev.board =
        h' ++ edgesOf [(v.getLsbD 17, v.getLsbD 18)] := by
  obtain ⟨s, a, ⟨hs, hwait⟩, hafter⟩ :=
    (steady tap (pinsOf t.dev.board)).wr m ⟨h, rfl⟩ (by decide : 4 ≤ SDES_CSR_IDX) (by decide) v
  obtain ⟨hbang, h16, h17, h18⟩ := of_write hena hafter
  have hold := hwait.trans hpins
  simp only [pinsOf, Prod.mk.injEq] at hold
  obtain ⟨holdTck, holdTms, holdTdi, holdHist⟩ := hold
  have hhist := hafter.hist
  rw [h16, htck, holdTck, if_neg (by simp), holdTms, holdTdi, holdHist] at hhist
  refine ⟨hbang, ?_⟩
  have heq := h16.trans htck
  change lowered ((m.registers tap).wr SDES_CSR_IDX v t.dev).board = _
  rw [lowered, heq, if_pos rfl, hhist, h17, h18]
  simp [edgesOf]

end BitBang

theorem and_twoPow_ne_zero {x : BitVec 32} {i : ℕ} (hi : i < 32) :
    x &&& BitVec.twoPow 32 i ≠ 0 ↔ x.getLsbD i = true := by
  rw [BitVec.and_twoPow]
  split_ifs with h
  · refine iff_of_true (fun hzero => ?_) h
    have hbit := congrArg (fun y => y.getLsbD i) hzero
    simp [hi] at hbit
  · exact iff_of_false (fun hne => hne rfl) h

theorem getLsbD_assign {x : BitVec 32} {i k : ℕ} {p : Prop} [Decidable p] (hi : i < 32)
    (hk : k < 32) :
    (if p then x ||| BitVec.twoPow 32 i else x &&& ~~~ BitVec.twoPow 32 i).getLsbD k =
      if k = i then decide p else x.getLsbD k := by
  by_cases hp : p <;> by_cases hki : k = i
  · simp [hp, hki, hi]
  · simp [hp, hki, Ne.symm hki]
  · simp [hp, hki, hi]
  · simp [hp, hki, hk]

theorem getLsbD_collect (x : BitVec 32) (k : ℕ) {i : ℕ} {p : Prop} [Decidable p] (hi : i < 32) :
    (if p then x ||| BitVec.twoPow 32 i else x).getLsbD k =
      (x.getLsbD k || (decide (k = i) && decide p)) := by
  by_cases hp : p
  · rw [if_pos hp, BitVec.getLsbD_or, BitVec.getLsbD_twoPow]
    simp [hp, hi, eq_comm]
  · simp [hp]

theorem getLsbD_pins {csr tms tdi : BitVec 32} {i k : ℕ} (hi : i < 32) (hk : k < 32) :
    (pins csr tms tdi (BitVec.twoPow 32 i)).getLsbD k =
      if k = 18 then tdi.getLsbD i else if k = 17 then tms.getLsbD i else csr.getLsbD k := by
  have htms : SDES_CSR_BB_TMS = BitVec.twoPow 32 17 := rfl
  have htdi : SDES_CSR_BB_TDI = BitVec.twoPow 32 18 := rfl
  rw [pins, htms, htdi, getLsbD_assign (by decide) hk, getLsbD_assign (by decide) hk]
  simp only [and_twoPow_ne_zero hi, Bool.decide_eq_true]

/-- The loop of `xfer32bb` before bit `i`. -/
structure Shifted (c : Call) (tap : Tap) (h : List Edge) (i : ℕ) (csr tdo : BitVec 32)
    (t : Transfer Bus) : Prop where
  bang : BitBang t.dev.board
  ena : csr.getLsbD 31 = true
  tck : csr.getLsbD 16 = false
  edges : lowered t.dev.board = h ++ edgesOf (c.bits.take i)
  samples : ∀ k < 32, tdo.getLsbD k = (decide (k < i) && tdoAt tap h c.bits k)

variable {m : Master cs} {c : Call} {h : List Edge} {i n : ℕ} {csr tdo : BitVec 32}
  {t : Transfer Bus}

/-- One bit is one period of TCK, with TDO read while TCK is low. -/
theorem Shifted.next (hs : Shifted c tap h i csr tdo t) (hi : i < c.nbits) (logBscn : Bool) :
    ∃ csr' tdo' t', Shifted c tap h (i + 1) csr' tdo' t' ∧
      bits32bb (m.registers tap) logBscn c.tms c.tdi (n + 1) (BitVec.twoPow 32 i) csr tdo t =
        bits32bb (m.registers tap) logBscn c.tms c.tdi n (BitVec.twoPow 32 (i + 1)) csr' tdo' t'
      := by
  have h32 : i < 32 := hi.trans_le c.le
  have htck : SDES_CSR_BB_TCK = BitVec.twoPow 32 16 := rfl
  have htdo : SDES_CSR_BB_TDO = BitVec.twoPow 32 19 := rfl
  have hpins : ∀ k < 32, (pins csr c.tms c.tdi (BitVec.twoPow 32 i)).getLsbD k = _ :=
    fun k hk => getLsbD_pins h32 hk
  generalize hlow : pins csr c.tms c.tdi (BitVec.twoPow 32 i) = low at hpins
  have hhigh : ∀ k < 32, (low ||| SDES_CSR_BB_TCK).getLsbD k =
      if k = 16 then true else low.getLsbD k := by
    intro k hk
    have := getLsbD_assign (x := low) (i := 16) (p := True) (by decide) hk
    simpa [htck] using this
  -- TCK is lowered with the bit on the pins
  obtain ⟨hbang1, hpins1⟩ := hs.bang.lower tap m (v := low)
    ((hpins 31 (by decide)).trans hs.ena) ((hpins 16 (by decide)).trans hs.tck)
  generalize ht1 : o32 (m.registers tap) SDES_CSR_IDX low t = t1 at hbang1 hpins1
  -- TDO is read
  obtain ⟨hbang2, hpins2, hcsr, hsample⟩ := hbang1.read tap m
  generalize hr2 : i32 (m.registers tap) SDES_CSR_IDX t1 = r2 at hbang2 hpins2 hcsr hsample
  -- TCK is raised
  have hready : pinsOf r2.2.dev.board = (false, (low ||| SDES_CSR_BB_TCK).getLsbD 17,
      (low ||| SDES_CSR_BB_TCK).getLsbD 18, lowered t.dev.board) := by
    rw [hpins2, hpins1, hhigh 17 (by decide), hhigh 18 (by decide)]
    rfl
  have hena : (low ||| SDES_CSR_BB_TCK).getLsbD 31 = true := by
    rw [hhigh 31 (by decide)]
    exact (hpins 31 (by decide)).trans hs.ena
  obtain ⟨hbang3, hedges3⟩ := hbang2.raise tap m hena (hhigh 16 (by decide)) hready
  generalize ht3 : o32 (m.registers tap) SDES_CSR_IDX (low ||| SDES_CSR_BB_TCK) r2.2 = t3
    at hbang3 hedges3
  -- logging reads the register once more, which changes nothing
  generalize ht4 : (if logBscn then (i32 (m.registers tap) SDES_CSR_IDX t3).2 else t3) = t4
  have hlog : BitBang t4.dev.board ∧ lowered t4.dev.board = lowered t3.dev.board := by
    rw [← ht4]
    cases logBscn with
    | false => exact ⟨hbang3, rfl⟩
    | true =>
      obtain ⟨hbang4, hpins4, _⟩ := hbang3.read tap m
      exact ⟨hbang4, BitBang.lowered_eq hpins4⟩
  have htms : low.getLsbD 17 = c.tms.getLsbD i := hpins 17 (by decide)
  have htdi : low.getLsbD 18 = c.tdi.getLsbD i := hpins 18 (by decide)
  simp only [pinsOf, Prod.mk.injEq] at hpins1
  -- what was read is TDO after the falling edge, the bit the board sends back next
  have hat : tdoAt tap h c.bits i = _ := c.tdoAt_eq hi
  rw [hpins1.2.1, hpins1.2.2.1, hpins1.2.2.2, htms, htdi, hs.edges, ← hat] at hsample
  refine ⟨(low ||| SDES_CSR_BB_TCK) &&& ~~~SDES_CSR_BB_TCK,
    if r2.1 &&& SDES_CSR_BB_TDO ≠ 0 then tdo ||| BitVec.twoPow 32 i else tdo, t4, ?_, ?_⟩
  · have hclear : ∀ k < 32, ((low ||| SDES_CSR_BB_TCK) &&& ~~~SDES_CSR_BB_TCK).getLsbD k =
        if k = 16 then false else (low ||| SDES_CSR_BB_TCK).getLsbD k := by
      intro k hk
      have := getLsbD_assign (x := low ||| SDES_CSR_BB_TCK) (i := 16) (p := False) (by decide) hk
      simpa [htck] using this
    refine ⟨hlog.1, ?_, hclear 16 (by decide), ?_, ?_⟩
    · rw [hclear 31 (by decide), if_neg (by decide), hhigh 31 (by decide), if_neg (by decide)]
      exact (hpins 31 (by decide)).trans hs.ena
    · rw [hlog.2, hedges3, hhigh 17 (by decide), hhigh 18 (by decide), hs.edges,
        c.bits_take_succ hi, edgesOf_append, List.append_assoc]
      simp only [if_neg (by decide : ¬ 17 = 16), if_neg (by decide : ¬ 18 = 16), htms, htdi]
    · intro k hk
      have hor := getLsbD_collect tdo k h32 (p := r2.1 &&& SDES_CSR_BB_TDO ≠ 0)
      rw [hor, hs.samples k hk, htdo]
      simp only [and_twoPow_ne_zero (by decide : 19 < 32), hsample, Bool.decide_eq_true]
      by_cases hki : k = i
      · simp [hki]
      · have hlt : k < i + 1 ↔ k < i := by omega
        simp [hki, hlt]
  · rw [bits32bb]
    simp only [hlow, ht1, hr2, ht3, ht4]
    rw [BitVec.twoPow_eq, BitVec.twoPow_eq, BitVec.shiftLeft_add]

variable (m) in
theorem Shifted.loop (hs : Shifted c tap h i csr tdo t) (hn : i + n = c.nbits) (logBscn : Bool) :
    ∃ t', bits32bb (m.registers tap) logBscn c.tms c.tdi n (BitVec.twoPow 32 i) csr tdo t =
        (c.tdo tap h, t') ∧ BitBang t'.dev.board ∧ lowered t'.dev.board = h ++ edgesOf c.bits := by
  induction n generalizing i csr tdo t with
  | zero =>
    obtain rfl : i = c.nbits := hn
    have htdo : tdo = c.tdo tap h := by
      apply BitVec.eq_of_getLsbD_eq
      intro k hk
      rw [hs.samples k hk, c.getLsbD_tdo hk]
    have hall : c.bits.take c.nbits = c.bits := List.take_of_length_le c.bits_length.le
    refine ⟨t, ?_, hs.bang, ?_⟩
    · rw [bits32bb, htdo]
    · rw [hs.edges, hall]
  | succ n ih =>
    obtain ⟨csr', tdo', t', hnext, heq⟩ := hs.next (m := m) (n := n) (by omega) logBscn
    rw [heq]
    exact ih hnext (by omega)

variable (tap m c) in
theorem xfer32bb_spec (hb : BitBang t.dev.board) (logBscn : Bool) :
    ∃ t', xfer32bb (m.registers tap) logBscn c.tms c.tdi c.nbits t =
        (c.tdo tap (lowered t.dev.board), t') ∧ BitBang t'.dev.board ∧
      lowered t'.dev.board = lowered t.dev.board ++ edgesOf c.bits := by
  obtain ⟨hbang, hpins, hena, _⟩ := hb.read tap m
  rw [xfer32bb]
  generalize i32 (m.registers tap) SDES_CSR_IDX t = r at hbang hpins hena
  have hmask : ∀ k < 32, (r.1 &&& ~~~SDES_CSR_BBMSK).getLsbD k =
      (r.1.getLsbD k && !SDES_CSR_BBMSK.getLsbD k) := by
    intro k hk
    rw [BitVec.getLsbD_and, BitVec.getLsbD_not, decide_eq_true hk, Bool.true_and]
  have hmask31 : SDES_CSR_BBMSK.getLsbD 31 = false := rfl
  have hmask16 : SDES_CSR_BBMSK.getLsbD 16 = true := rfl
  have hstart : Shifted c tap (lowered t.dev.board) 0 (r.1 &&& ~~~SDES_CSR_BBMSK) 0 r.2 := by
    refine ⟨hbang, ?_, ?_, ?_, fun k hk => by simp⟩
    · rw [hmask 31 (by decide), hena, hmask31]
      rfl
    · rw [hmask 16 (by decide), hmask16, Bool.not_true, Bool.and_false]
    · rw [BitBang.lowered_eq hpins]
      exact (List.append_nil _).symm
  exact hstart.loop m (Nat.zero_add _) logBscn

/-- Calls of `xfer32bb`, one after the other. -/
def calls32bb {σ : Type} (regs : Registers σ) (logBscn : Bool) :
    List Call → Transfer σ → List (BitVec 32) × Transfer σ
  | [], t => ([], t)
  | c :: calls, t =>
    let (tdo, t) := xfer32bb regs logBscn c.tms c.tdi c.nbits t
    let (tdos, t) := calls32bb regs logBscn calls t
    (tdo :: tdos, t)

variable (tap m) in
theorem calls32bb_spec (calls : List Call) (hb : BitBang t.dev.board) (logBscn : Bool) :
    ∃ t', calls32bb (m.registers tap) logBscn calls t =
        (replies tap (lowered t.dev.board) calls, t') ∧ BitBang t'.dev.board ∧
      lowered t'.dev.board = lowered t.dev.board ++ edgesOf (calls.flatMap Call.bits) := by
  induction calls generalizing t with
  | nil => exact ⟨t, rfl, hb, (List.append_nil _).symm⟩
  | cons c calls ih =>
    obtain ⟨t1, hcall, hb1, hedges⟩ := xfer32bb_spec tap m c hb logBscn
    obtain ⟨t2, hcalls, hb2, hedges2⟩ := ih hb1
    refine ⟨t2, ?_, hb2, ?_⟩
    · rw [calls32bb, hcall]
      simp only [hcalls, replies, hedges]
    · rw [hedges2, hedges, List.flatMap_cons, edgesOf_append, List.append_assoc]

end XvcSupport.JtagDriverTmemFifo
