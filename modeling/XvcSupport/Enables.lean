import XvcSupport.Waveform
import XvcSupport.BridgeTarget
import XvcSupport.Refinement

namespace XvcSupport.Jtag2BSCAN

open JtagTapIR (Generics)
open JtagSerDesCore (Paced Move levels_tck levels_pins)
open AxisToJtag (Dev Fw AllTidy Fair answers afterAll)

variable {L : ℕ} {g : Generics L} {s : CeSt L} {c : ClkCycle}

/-- With the positive enable alone the registers take a rising edge. -/
theorem CeSt.next_posedge (h : c.rst = false) (hpos : c.jtckPosedge = true)
    (hneg : c.jtckNegedge = false) :
    (s.next g c).toSt = s.toSt.edge g ⟨true, c.jtms, c.jtdi, c.tdo⟩ := by
  simp [CeSt.next, St.edge, h, hpos, hneg]

/-- With the negative enable alone they take a falling edge; what TMS and TDI are does not
matter. -/
theorem CeSt.next_negedge (h : c.rst = false) (hpos : c.jtckPosedge = false)
    (hneg : c.jtckNegedge = true) (tms tdi : Bool) :
    (s.next g c).toSt = s.toSt.edge g ⟨false, tms, tdi, c.tdo⟩ := by
  simp [CeSt.next, St.edge, h, hpos, hneg]

theorem after_snoc (es : List Edge) (e : Edge) : after g (es ++ [e]) = (after g es).edge g e := by
  simp [after]

/-- AxisToJtag and the bridge on one clock, with the strobes between them.  `seen` are the edges
of TCK up to the cycle before. -/
structure Enabled (f : AxisToJtag.Generics) (L : ℕ) where
  dev : Dev f
  tck_pos : Bool
  tck_neg : Bool
  bridge : CeSt L
  seen : List AxisToJtag.Edge

namespace Enabled

variable {f : AxisToJtag.Generics} (g) (user : User) (clkDiv2 : ℕ)

def clkCycle (s : Enabled f L) : ClkCycle where
  rst := false
  jtckPosedge := s.tck_pos
  jtckNegedge := s.tck_neg
  jtck := s.dev.ser.tck
  jtms := s.dev.ser.pins.1
  jtdi := s.dev.ser.pins.2
  tdo := user (withUser user s.seen)

def cycle (s : Enabled f L) (ev : Bool × Bool) : Enabled f L :=
  let tdo := s.bridge.jtdo
  { dev := s.dev.cycle clkDiv2 (fun _ _ _ => tdo) ev
    tck_pos := s.dev.ser.tckPos (s.dev.core.serIn (s.dev.sTdo ev.2) tdo)
    tck_neg := s.dev.ser.tckNeg
    bridge := s.bridge.next g (s.clkCycle user)
    seen := s.dev.hist }

variable (bufMem : ℕ → BitVec f.W) (memOut : BitVec f.W) (start : Start)
  (frames : List (List (BitVec f.W))) (evs : ℕ → Bool × Bool)

/-- After `t` cycles. -/
def run (t : ℕ) : Enabled f L :=
  runAt (cycle g user clkDiv2)
    { dev := .init f bufMem memOut (frames.flatMap AxisToJtag.beats)
      tck_pos := false
      tck_neg := false
      bridge := start.st g
      seen := [] } evs t

/-- The bridge has taken all edges of TCK but the one that a strobe announces. -/
structure Tracks (s : Enabled f L) : Prop where
  paced : Paced clkDiv2 s.dev.ser
  bridge : s.bridge.toSt = after g (withUser user s.seen)
  quiet : s.tck_pos = false → s.tck_neg = false → s.dev.hist = s.seen
  rise : s.tck_pos = true → s.tck_neg = false ∧ s.dev.ser.tck = true ∧
    s.dev.hist = s.seen ++ [⟨true, s.dev.ser.pins.1, s.dev.ser.pins.2⟩]
  fall : s.tck_neg = true → s.tck_pos = false ∧ s.dev.ser.state = .shift ∧
    s.dev.ser.div = clkDiv2 - 1 ∧ ∃ tms tdi, s.dev.hist = s.seen ++ [⟨false, tms, tdi⟩]

variable {g user clkDiv2} {s : Enabled f L} {ev : Bool × Bool}

/-- The target is asked only when TDO is sampled. -/
theorem cycle_congr (tap tap' : AxisToJtag.Tap) {d : Dev f}
    (h : d.ser.state = .shift ∧ d.ser.div = 0 ∧ d.ser.tck = false →
      tap d.hist d.ser.pins.1 d.ser.pins.2 = tap' d.hist d.ser.pins.1 d.ser.pins.2) :
    d.cycle clkDiv2 tap ev = d.cycle clkDiv2 tap' ev := by
  have hser : d.ser.next clkDiv2 (d.core.serIn (d.sTdo ev.2)
        (tap d.hist d.ser.pins.1 d.ser.pins.2)) =
      d.ser.next clkDiv2 (d.core.serIn (d.sTdo ev.2)
        (tap' d.hist d.ser.pins.1 d.ser.pins.2)) := by
    by_cases hsample : d.ser.state = .shift ∧ d.ser.div = 0 ∧ d.ser.tck = false
    · rw [h hsample]
    · exact JtagSerDesCore.Reg.next_tdo hsample (d.core.serIn (d.sTdo ev.2)
        (tap' d.hist d.ser.pins.1 d.ser.pins.2)) _
  simp only [Dev.cycle, hser]

theorem Tracks.cycle_dev (hD : 2 ≤ clkDiv2) (h : Tracks g user clkDiv2 s) (ev : Bool × Bool) :
    (s.cycle g user clkDiv2 ev).dev = s.dev.cycle clkDiv2 (Jtag2BSCAN.bridge g user) ev := by
  refine cycle_congr (fun _ _ _ => s.bridge.jtdo) (Jtag2BSCAN.bridge g user) ?_
  rintro ⟨-, hdiv, htck⟩
  have hpos : s.tck_pos = false := by
    by_contra hpos
    have hhigh := (h.rise (by simpa using hpos)).2.1
    rw [htck] at hhigh
    cases hhigh
  -- the low phase goes on for a cycle after the strobe
  have hneg : s.tck_neg = false := by
    by_contra hneg
    have hfull := (h.fall (by simpa using hneg)).2.2.1
    omega
  change s.bridge.toSt.jtdo = (after g (withUser user s.dev.hist)).jtdo
  rw [h.bridge, h.quiet hpos hneg]

theorem Tracks.next_bridge (h : Tracks g user clkDiv2 s) :
    (s.bridge.next g (s.clkCycle user)).toSt = after g (withUser user s.dev.hist) := by
  cases hpos : s.tck_pos with
  | true =>
    obtain ⟨hneg, -, hhist⟩ := h.rise hpos
    rw [CeSt.next_posedge rfl hpos hneg, h.bridge, hhist, withUser_snoc, after_snoc]
    rfl
  | false =>
    cases hneg : s.tck_neg with
    | true =>
      obtain ⟨-, -, -, tms, tdi, hhist⟩ := h.fall hneg
      rw [CeSt.next_negedge rfl hpos hneg tms tdi, h.bridge, hhist, withUser_snoc, after_snoc]
      rfl
    | false =>
      rw [CeSt.next_idle g _ ⟨rfl, hpos, hneg⟩, h.bridge, h.quiet hpos hneg]

theorem Tracks.cycle (h : Tracks g user clkDiv2 s) (ev : Bool × Bool) :
    Tracks g user clkDiv2 (s.cycle g user clkDiv2 ev) := by
  set i := s.dev.core.serIn (s.dev.sTdo ev.2) s.bridge.jtdo with hi
  have hpos_iff := h.paced.tckPos_iff i
  have hneg_iff := h.paced.tckNeg_iff i
  have hser : (s.cycle g user clkDiv2 ev).dev.ser = s.dev.ser.next clkDiv2 i := rfl
  have hhist : (s.cycle g user clkDiv2 ev).dev.hist =
      if (s.dev.ser.next clkDiv2 i).tck = s.dev.ser.tck then s.dev.hist
      else s.dev.hist ++
        [⟨(s.dev.ser.next clkDiv2 i).tck, s.dev.ser.pins.1, s.dev.ser.pins.2⟩] := rfl
  have hmove := h.paced.move i
  refine ⟨hser ▸ hmove.paced h.paced, h.next_bridge, ?_, ?_, ?_⟩
  · intro hpos hneg
    have hsame : (s.dev.ser.next clkDiv2 i).tck = s.dev.ser.tck := by
      have hnotPos : ¬ s.dev.ser.tckPos i = true := by
        rw [show s.dev.ser.tckPos i = false from hpos]
        simp
      have hnotNeg : ¬ s.dev.ser.tckNeg = true := by
        rw [show s.dev.ser.tckNeg = false from hneg]
        simp
      rw [hpos_iff] at hnotPos
      rw [hneg_iff] at hnotNeg
      cases h0 : s.dev.ser.tck
      all_goals
        cases h1 : (s.dev.ser.next clkDiv2 i).tck
        all_goals simp_all
    rw [hhist, if_pos hsame]
    rfl
  · intro hpos
    obtain ⟨hlow, hhigh⟩ := hpos_iff.mp hpos
    have hneg : s.dev.ser.tckNeg = false := by simp [JtagSerDesCore.Reg.tckNeg, hlow]
    have hpins : (s.dev.ser.next clkDiv2 i).pins = s.dev.ser.pins := by
      cases hmove with
      | rest _ _ hlev _ => exact levels_pins hlev
      | load _ _ htck _ => exact absurd hhigh (by rw [htck]; simp)
      | count _ _ _ hlev _ => exact levels_pins hlev
      | rise _ _ _ _ hpins _ => exact hpins
      | hold _ _ _ hlev _ => exact levels_pins hlev
      | fall _ _ _ htck _ => exact absurd hhigh (by rw [htck]; simp)
    refine ⟨hneg, hhigh, ?_⟩
    rw [hhist, if_neg (by rw [hhigh, hlow]; simp), hser, hpins, hhigh]
    rfl
  · intro hneg
    obtain ⟨hhigh, hlow⟩ := hneg_iff.mp hneg
    have hpos : s.dev.ser.tckPos i = false := by
      rw [Bool.eq_false_iff, ne_eq, hpos_iff, hhigh]
      simp
    have hfull : (s.dev.ser.next clkDiv2 i).state = .shift ∧
        (s.dev.ser.next clkDiv2 i).div = clkDiv2 - 1 := by
      cases hmove with
      | rest _ _ hlev _ => exact absurd (levels_tck hlev) (by rw [hlow, hhigh]; simp)
      | load hidle _ _ _ =>
        exact absurd (h.paced.tck_low (by rw [hidle]; simp)) (by rw [hhigh]; simp)
      | count _ _ _ hlev _ => exact absurd (levels_tck hlev) (by rw [hlow, hhigh]; simp)
      | rise _ _ _ htck _ _ => exact absurd hlow (by rw [htck]; simp)
      | hold _ _ _ hlev _ => exact absurd (levels_tck hlev) (by rw [hlow, hhigh]; simp)
      | fall _ _ hstate _ hdiv => exact ⟨hstate, hdiv⟩
    refine ⟨hpos, hfull.1, hfull.2, s.dev.ser.pins.1, s.dev.ser.pins.2, ?_⟩
    rw [hhist, if_neg (by rw [hhigh, hlow]; simp), hlow]
    rfl

end Enabled

/-- In every run the firmware with the enabled bridge is the firmware with the bridge as its
target, and the bridge has taken the edges up to the cycle before; it serves frames that fit and
do not break off within a pair as `serve` does, and comes to rest with the registers of a bridge
that TCK has clocked. -/
theorem enabled_refines {f : AxisToJtag.Generics} {clkDiv2 : ℕ} (hD : 2 ≤ clkDiv2) (g : Generics L)
    (user : User) (bufMem : ℕ → BitVec f.W) (memOut : BitVec f.W) (start : Start)
    (frames : List (List (BitVec f.W))) (evs : ℕ → Bool × Bool) :
    let s := Enabled.run g user clkDiv2 bufMem memOut start frames evs
    let d := Dev.run clkDiv2 (bridge g user) frames bufMem memOut evs
    (∀ t, (s t).dev = d t ∧
      (s (t + 1)).bridge.toSt = after g (withUser user (d t).hist)) ∧
    ((∀ frame ∈ frames, AxisToJtag.Fits f frame) →
      AllTidy (bridge g user) (Fw.init f.W) frames → Fair evs →
      ∃ T, ∀ t ≥ T, (s t).dev.out = answers (bridge g user) (Fw.init f.W) frames ∧
        (s t).bridge.toSt =
          after g (withUser user (afterAll (bridge g user) (Fw.init f.W) frames).hist)) := by
  intro s d
  have hrun : ∀ t, Enabled.Tracks g user clkDiv2 (s t) ∧ (s t).dev = d t := by
    intro t
    induction t with
    | zero =>
      have hbridge : (start.st g).toSt = .init g := Start.toSt_st start
      exact ⟨⟨.init (by omega), hbridge, fun _ _ => rfl, by simp [s, Enabled.run],
        by simp [s, Enabled.run]⟩, rfl⟩
    | succ t ih =>
      obtain ⟨htracks, hdev⟩ := ih
      have hs : s (t + 1) = (s t).cycle g user clkDiv2 (evs t) := runAt_succ t
      have hd : d (t + 1) = (d t).cycle clkDiv2 (bridge g user) (evs t) := runAt_succ t
      refine ⟨hs ▸ htracks.cycle (evs t), ?_⟩
      rw [hs, hd, htracks.cycle_dev hD, hdev]
  have hbridge : ∀ t, (s (t + 1)).bridge.toSt = after g (withUser user (d t).hist) := by
    intro t
    have hs : s (t + 1) = (s t).cycle g user clkDiv2 (evs t) := runAt_succ t
    rw [hs, ← (hrun t).2]
    exact (hrun t).1.next_bridge
  refine ⟨fun t => ⟨(hrun t).2, hbridge t⟩, ?_⟩
  intro hfit htidy hfair
  have hD' : 0 < clkDiv2 := by omega
  have hgood : ∀ t, (d t).Sound (evs t) ∧ (d t).InRange (evs t) :=
    Dev.run_sound hD' hfit htidy
  obtain ⟨T, hT⟩ := Dev.run_ends hD' (fun _ h => htidy.ne_nil h) (fun t => (hgood t).1)
    (fun t => (hgood t).2) hfair
  refine ⟨T + 1, fun t ht => ?_⟩
  obtain ⟨u, rfl⟩ := Nat.exists_eq_add_of_le' (Nat.one_le_of_lt ht)
  obtain ⟨-, hout, -⟩ := hT (u + 1) (by omega)
  obtain ⟨-, -, hhist⟩ := hT u (by omega)
  exact ⟨(congrArg Dev.out (hrun (u + 1)).2).trans hout, by rw [hbridge u, hhist]⟩

/-- A shift that takes the default TAP to Run-Test/Idle, with phases of five cycles. -/
theorem enabled_refines_default :
    ∃ T, ∀ t ≥ T, (Enabled.run .default (fun _ => true) 5 (fun _ => 0)
      (0 : BitVec AxisToJtag.fourOctets.W) .reset [[0x10100005, 0x1f, 0]]
      (fun _ => (true, true)) t).bridge.fsm = JtagTapFsm.TapState.runTestIdle.encode := by
  obtain ⟨-, hend⟩ := enabled_refines (f := AxisToJtag.fourOctets) (by decide : 2 ≤ 5) .default
    (fun _ => true) (fun _ => 0) 0 .reset [[0x10100005, 0x1f, 0]] (fun _ => (true, true))
  obtain ⟨T, hT⟩ := hend (by
      intro frame hframe
      exact AxisToJtag.fits_of_width (a := 5) rfl fun hnil => by subst hnil; simp at hframe)
    ⟨fun _ => Or.inl rfl, trivial⟩ ⟨fun t => ⟨t, le_rfl, rfl⟩, fun t => ⟨t, le_rfl, rfl⟩⟩
  refine ⟨T, fun t ht => ?_⟩
  have hfsm := congrArg St.fsm (hT t ht).2
  exact hfsm.trans (by decide +kernel)

end XvcSupport.Jtag2BSCAN
