import XvcSupport.TmemSerDes

namespace XvcSupport.JtagDriverTmemFifo

open AxisToJtag Axis2TmemFifo Tmem2BSCANWrapper RegisterDriver

variable {cs : BitVec 2} {tap : Tap} {m : Master cs} {t : Transfer Bus} {s s' : Board}
  {a : Around}

/-- The state of the TAP is the same: it answers alike to whatever comes next. -/
def SameState (tap : Tap) (h h' : List Edge) : Prop :=
  ∀ es tms tdi, tap (h ++ es) tms tdi = tap (h' ++ es) tms tdi

theorem SameState.append {h h' : List Edge} (hsame : SameState tap h h') (es : List Edge) :
    SameState tap (h ++ es) (h' ++ es) := by
  intro es' tms tdi
  rw [List.append_assoc, List.append_assoc]
  exact hsame (es ++ es') tms tdi

theorem SameState.replies_eq {h h' : List Edge} (hsame : SameState tap h h') (calls : List Call) :
    replies tap h calls = replies tap h' calls := by
  induction calls generalizing h h' with
  | nil => rfl
  | cons c calls ih =>
    have htdo : c.tdo tap h = c.tdo tap h' := by
      rw [Call.tdo, Call.tdo]
      congr 1
      funext i
      exact hsame _ _ _
    rw [replies, replies, htdo, ih (hsame.append _)]

theorem Quiescent.passes (hi : Quiescent s) (hp : Passes tap s s') :
    Quiescent s' ∧ pinsOf s' = pinsOf s := by
  by_cases he : s.bb_ena = true
  · have hbang : BitBang s := ⟨hi.running, he⟩
    obtain ⟨hbang', hpins⟩ := hbang.passes hp
    obtain ⟨a, hs⟩ := hp
    exact ⟨⟨hbang'.running, hi.val_next hs, hi.serDes_eq hs ▸ hi.idle⟩, hpins⟩
  · have hr : Resting s := ⟨hi, by simpa using he⟩
    obtain ⟨hr', hhist, _⟩ := hr.passes hp
    obtain ⟨a, hs⟩ := hp
    refine ⟨hr'.toQuiescent, ?_⟩
    rw [pinsOf, pinsOf, tck_eq hr'.ena, tms_eq hr'.ena, tdi_eq hr'.ena, tck_eq hr.ena,
      tms_eq hr.ena, tdi_eq hr.ena, hhist, hi.serDes_eq hs]

theorem Quiescent.write (hi : Quiescent s) {v : BitVec 32} (hrun : v.getLsbD 8 = false)
    (htck : v.getLsbD 16 = false)
    (hw : After tap (written (s.auxOut tap a) SDES_CSR_IDX v) s s') :
    Quiescent s' ∧ s'.bb_ena = v.getLsbD 31 ∧ s'.tck = false ∧ s'.hist = lowered s := by
  have hserDes := hi.serDes_eq hw
  have hval : s'.serDesInVal = false :=
    (csr_written hw (by decide : 8 < 32) (by decide)).trans hrun
  have hena : s'.bb_ena = v.getLsbD 31 := csr_written hw (by decide : 31 < 32) (by decide)
  have hpin : s'.auxIn.getLsbD 80 = false :=
    (csr_written hw (by decide : 16 < 32) (by decide)).trans htck
  have hlow : s'.tck = false := by
    rw [Board.tck, hpin, hserDes, hi.idle.tck]
    rfl
  exact ⟨⟨hw.running, hval, hserDes ▸ hi.idle⟩, hena, hlow, hist_of_lowered hw hlow⟩

variable (tap) in
theorem Quiescent.steady (p : Bool × Bool × Bool × List Edge) :
    Steady tap fun s => Quiescent s ∧ pinsOf s = p where
  running _ hs := hs.1.running
  passes _ _ hs hp := ⟨(hs.1.passes hp).1, (hs.1.passes hp).2.trans hs.2⟩

variable (tap m) in
theorem Quiescent.read (hi : Quiescent t.dev.board) :
    Quiescent (i32 (m.registers tap) SDES_CSR_IDX t).2.dev.board ∧
      lowered (i32 (m.registers tap) SDES_CSR_IDX t).2.dev.board = lowered t.dev.board ∧
      (i32 (m.registers tap) SDES_CSR_IDX t).1.getLsbD 8 = false := by
  obtain ⟨s, ⟨hs, hpins⟩, hpass, hval⟩ := (Quiescent.steady tap (pinsOf t.dev.board)).rd m
    ⟨hi, rfl⟩ (by decide : 4 ≤ SDES_CSR_IDX) (by decide)
  obtain ⟨hs', hpins'⟩ := hs.passes hpass
  refine ⟨hs', BitBang.lowered_eq (hpins'.trans hpins), ?_⟩
  refine (congrArg (fun w => w.getLsbD 8) hval).trans ((getLsbD_csr (by decide)).trans ?_)
  exact hs'.val

variable (tap m) in
theorem Quiescent.hand (hi : Quiescent t.dev.board) {v : BitVec 32} (hrun : v.getLsbD 8 = false)
    (htck : v.getLsbD 16 = false) :
    Quiescent (o32 (m.registers tap) SDES_CSR_IDX v t).dev.board ∧
      (o32 (m.registers tap) SDES_CSR_IDX v t).dev.board.bb_ena = v.getLsbD 31 ∧
      (o32 (m.registers tap) SDES_CSR_IDX v t).dev.board.tck = false ∧
      (o32 (m.registers tap) SDES_CSR_IDX v t).dev.board.hist = lowered t.dev.board := by
  obtain ⟨s, a, ⟨hs, hpins⟩, hafter⟩ := (Quiescent.steady tap (pinsOf t.dev.board)).wr m
    ⟨hi, rfl⟩ (by decide : 4 ≤ SDES_CSR_IDX) (by decide) v
  rw [← BitBang.lowered_eq hpins]
  exact hs.write hrun htck hafter

def SDES_CSR_BB_ENA : BitVec 32 := 0x80000000

/-- The value that `reset` writes to CSR. -/
def resetWord (csr : BitVec 32) : BitVec 32 :=
  let csr := csr &&& ~~~SDES_CSR_BBMSK
  let csr := csr ||| SDES_CSR_BB_TMS
  let csr := csr &&& ~~~SDES_CSR_BB_TDI
  let csr := csr &&& ~~~SDES_CSR_BB_TCK
  csr &&& ~~~SDES_CSR_BB_ENA

theorem getLsbD_resetWord (csr : BitVec 32) {k : ℕ} (hk : k < 32) : (resetWord csr).getLsbD k =
    if k = 17 then true else csr.getLsbD k && !decide (k = 16 ∨ k = 18 ∨ k = 19 ∨ k = 31) := by
  have hmask : ∀ k < 32, SDES_CSR_BBMSK.getLsbD k = decide (k = 16 ∨ k = 17 ∨ k = 18 ∨ k = 19) := by
    decide
  have htms : ∀ k < 32, SDES_CSR_BB_TMS.getLsbD k = decide (k = 17) := by decide
  have htdi : ∀ k < 32, SDES_CSR_BB_TDI.getLsbD k = decide (k = 18) := by decide
  have htck : ∀ k < 32, SDES_CSR_BB_TCK.getLsbD k = decide (k = 16) := by decide
  have hena : ∀ k < 32, SDES_CSR_BB_ENA.getLsbD k = decide (k = 31) := by decide
  simp only [resetWord, BitVec.getLsbD_and, BitVec.getLsbD_or, BitVec.getLsbD_not, hk,
    hmask k hk, htms k hk, htdi k hk, htck k hk, hena k hk]
  by_cases h17 : k = 17
  · simp [h17]
  · by_cases hany : k = 16 ∨ k = 18 ∨ k = 19 ∨ k = 31
    · rcases hany with rfl | rfl | rfl | rfl <;> simp
    · simp_all

/-- `reset` for a board with a serializer. -/
def reset {σ ε : Type} (regs : Registers σ) (bitBang : Bool) (fuel : ℕ) (t : Transfer σ) :
    Run ε (Transfer σ) := do
  let (csr, t) := i32 regs SDES_CSR_IDX t
  let csr := resetWord csr
  let t := o32 regs SDES_CSR_IDX csr t
  let (_, t) ← xfer32sdes regs 0xff 0x00 8 fuel t
  return if bitBang then o32 regs SDES_CSR_IDX (csr ||| SDES_CSR_BB_ENA) t else t

def resetCall : Call := ⟨0xff, 0x00, 8, by decide, by decide⟩

theorem reset_spec {ε : Type} (hi : Quiescent t.dev.board) (bitBang : Bool) {fuel : ℕ}
    (hfuel : enoughReads ≤ fuel) :
    ∃ t', (reset (m.registers tap) bitBang fuel t : Run ε (Transfer Bus)) = Run.returned t' ∧
      Quiescent t'.dev.board ∧ t'.dev.board.bb_ena = bitBang ∧
      lowered t'.dev.board = lowered t.dev.board ++ edgesOf resetCall.bits := by
  obtain ⟨hi1, hlow1, hcsr⟩ := hi.read tap m
  rw [reset]
  generalize i32 (m.registers tap) SDES_CSR_IDX t = r at hi1 hlow1 hcsr
  have h8 : (resetWord r.1).getLsbD 8 = false := by
    rw [getLsbD_resetWord _ (by decide), hcsr]
    rfl
  have h16 : (resetWord r.1).getLsbD 16 = false := by
    rw [getLsbD_resetWord _ (by decide)]
    simp
  have h31 : (resetWord r.1).getLsbD 31 = false := by
    rw [getLsbD_resetWord _ (by decide)]
    simp
  obtain ⟨hi2, hena2, _, hhist2⟩ := hi1.hand tap m h8 h16
  simp only
  generalize o32 (m.registers tap) SDES_CSR_IDX (resetWord r.1) r.2 = t2 at hi2 hena2 hhist2
  -- the call that resets the TAP goes through the serializer whatever the interface in the end
  obtain ⟨t3, hcall, hr3, hhist3⟩ := xfer32sdes_spec tap resetCall m (ε := ε)
    (⟨hi2, hena2.trans h31⟩ : Resting t2.dev.board) hfuel
  rw [hhist2, hlow1] at hhist3
  have hlow3 : lowered t3.dev.board = t3.dev.board.hist := by
    rw [lowered, tck_eq hr3.ena, hr3.idle.tck, if_neg Bool.false_ne_true]
  refine ⟨_, (congrArg (· >>= _) hcall).trans rfl, ?_⟩
  cases bitBang with
  | false => exact ⟨hr3.toQuiescent, hr3.ena, hlow3.trans hhist3⟩
  | true =>
    -- the pins are handed over with TCK low, so no edge is made
    have hor : ∀ k < 32, (resetWord r.1 ||| SDES_CSR_BB_ENA).getLsbD k =
        ((resetWord r.1).getLsbD k || SDES_CSR_BB_ENA.getLsbD k) := fun k _ => BitVec.getLsbD_or
    obtain ⟨hi4, hena4, htck4, hhist4⟩ := hr3.toQuiescent.hand tap m
      ((hor 8 (by decide)).trans (by rw [h8]; rfl)) ((hor 16 (by decide)).trans (by rw [h16]; rfl))
    refine ⟨hi4, hena4.trans ((hor 31 (by decide)).trans (by rw [h31]; rfl)), ?_⟩
    have hlow4 : lowered (o32 (m.registers tap) SDES_CSR_IDX (resetWord r.1 ||| SDES_CSR_BB_ENA)
        t3).dev.board = _ := if_neg (by rw [htck4]; exact Bool.false_ne_true)
    exact hlow4.trans (hhist4.trans (hlow3.trans hhist3))

/-- The serializer and the single pins do the same: started in the same state of the TAP, they
return the same TDO and show the TAP the same bits, however long the cycles between accesses are.
The serializer is never found ready before its TDO is there. -/
theorem interfaces_agree {ε : Type} (m' : Master cs) (logBscn : Bool) (calls : List Call)
    {b : Transfer Bus} (hr : Resting t.dev.board) (hb : BitBang b.dev.board)
    (hsame : SameState tap t.dev.board.hist (lowered b.dev.board)) {fuel : ℕ}
    (hfuel : enoughReads ≤ fuel) :
    ∃ tdos t' b',
      (calls32sdes (m.registers tap) fuel calls t : Run ε (List (BitVec 32) × Transfer Bus)) =
        Run.returned (tdos, t') ∧
      calls32bb (m'.registers tap) logBscn calls b = (tdos, b') ∧
      rises t'.dev.board.hist = rises t.dev.board.hist ++ calls.flatMap Call.bits ∧
      rises b'.dev.board.hist = rises b.dev.board.hist ++ calls.flatMap Call.bits ∧
      ∀ before c, before ++ [c] <+: calls → ∃ tdos t1,
        (calls32sdes (m.registers tap) fuel before t : Run ε (List (BitVec 32) × Transfer Bus)) =
          Run.returned (tdos, t1) ∧
        ∀ n, (answer (m.registers tap) n c t1).1 &&& SDES_CSR_BSY = 0 →
          (answer (m.registers tap) n c t1).2.board.tdoReg >>> (32 - c.nbits) =
            c.tdo tap t1.dev.board.hist := by
  obtain ⟨t', hsdes, _, hhist⟩ := calls32sdes_spec tap m (ε := ε) calls hr hfuel
  obtain ⟨b', hbang, _, hedges⟩ := calls32bb_spec tap m' calls hb logBscn
  refine ⟨_, t', b', hsdes, ?_, ?_, ?_, ?_⟩
  · rw [hbang, hsame.replies_eq]
  · rw [hhist, rises_append, rises_edgesOf]
  · rw [← rises_lowered, hedges, rises_append, rises_edgesOf, rises_lowered]
  · intro before c _
    obtain ⟨t1, hcalls, hr1, _⟩ := calls32sdes_spec tap m (ε := ε) before hr hfuel
    exact ⟨_, t1, hcalls, fun _ hclear => answer_spec tap c m hr1 hclear⟩

theorem Quiescent.init : Quiescent (Board.init cs) where
  running := .init
  val := by change (0 : BitVec 128).getLsbD 72 = false; decide
  idle := ⟨rfl, rfl, rfl, rfl, rfl⟩

/-- A bus that is idle for one cycle before every access. -/
def oneIdle : Master 0 where
  base := 0
  before := fun _ => [⟨⟨0, 0, false, 0, 0⟩, ⟨0, .init 32, false⟩, rfl⟩]
  during := fun _ => ⟨0, .init 32, false⟩

def powerUp : Transfer Bus where
  hdbuf := fun _ => 0
  rxb := fun _ => 0
  drop := 0
  dev := ⟨.init 0, 0⟩

def shorted : Tap := fun _ _ tdi => tdi

def tenBits : Call := ⟨0x201, 0x155, 10, by decide, by decide⟩

/-- Two boards, reset after power-up. -/
theorem interfaces_agree_ten_bits : ∃ t b tdos t' b',
    (reset (oneIdle.registers shorted) false enoughReads powerUp : Run Unit (Transfer Bus)) =
        Run.returned t ∧
      (reset (oneIdle.registers shorted) true enoughReads powerUp : Run Unit (Transfer Bus)) =
        Run.returned b ∧
      (calls32sdes (oneIdle.registers shorted) enoughReads [tenBits, tenBits] t :
        Run Unit (List (BitVec 32) × Transfer Bus)) = Run.returned (tdos, t') ∧
      calls32bb (oneIdle.registers shorted) true [tenBits, tenBits] b = (tdos, b') ∧
      rises t'.dev.board.hist = rises t.dev.board.hist ++ (tenBits.bits ++ tenBits.bits) ∧
      rises b'.dev.board.hist = rises b.dev.board.hist ++ (tenBits.bits ++ tenBits.bits) := by
  obtain ⟨t, hreset, hi, hena, hlow⟩ := reset_spec (ε := Unit) (m := oneIdle) (t := powerUp)
    .init false le_rfl
  obtain ⟨b, hreset', hi', hena', hlow'⟩ := reset_spec (ε := Unit) (m := oneIdle) (t := powerUp)
    .init true le_rfl
  have hhist : lowered t.dev.board = t.dev.board.hist := by
    rw [lowered, tck_eq hena, hi.idle.tck, if_neg Bool.false_ne_true]
  have hsame : SameState shorted t.dev.board.hist (lowered b.dev.board) := by
    rw [← hhist, hlow, hlow']
    exact fun _ _ _ => rfl
  obtain ⟨tdos, t', b', hsdes, hbang, hrises, hrises', _⟩ :=
    interfaces_agree (ε := Unit) (m := oneIdle) oneIdle true [tenBits, tenBits]
      ⟨hi, hena⟩ ⟨hi'.running, hena'⟩ hsame le_rfl
  exact ⟨t, b, tdos, t', b', hreset, hreset', hsdes, hbang, hrises, hrises'⟩

end XvcSupport.JtagDriverTmemFifo
