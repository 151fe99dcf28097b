import XvcSupport.Pipeline
import XvcSupport.Answers
import XvcSupport.Runs

namespace XvcSupport

namespace JtagSerDesCore

variable {W : ℕ} (clkDiv2 : ℕ) (r : Reg W) (i : In W)

def Reg.latches : Bool :=
  match r.state with
  | .idle => i.dataInValid && r.iReady
  | .shift => decide (r.div = 0 ∧ r.cnt = 0) && r.tck && i.dataInValid
  | .wai => false

def Reg.completes : Bool := decide (r.state = .shift ∧ r.div = 0) && !r.tck && r.lastBit

theorem Reg.next_of_latches (h : r.latches i = true) :
    ((r.next clkDiv2 i).tms, (r.next clkDiv2 i).tdi) = (i.dataInTms, i.dataInTdi) := by
  unfold latches at h
  cases hs : r.state <;> rw [hs] at h <;>
    simp_all [Reg.next, Reg.lower]

/-- A word is offered when its last bit is sampled, and for longer only in `WAI_S`. -/
theorem Reg.next_oValid (h : r.state ≠ .wai) : (r.next clkDiv2 i).oValid = r.completes := by
  cases hs : r.state with
  | idle => simp only [Reg.next, completes, hs]; split_ifs <;> rfl
  | shift =>
    simp only [Reg.next, completes, hs, Reg.raise, Reg.lower]
    split_ifs <;> simp_all
  | wai => exact absurd hs h

/-- In `SHIFT_S` the input is acknowledged when it has been latched. -/
def Reg.acknowledges : Bool := decide (r.state = .shift) && r.iReady

theorem Reg.next_acknowledges (hwai : r.state = .wai → r.iReady = false) :
    (r.next clkDiv2 i).acknowledges = (decide (r.state = .shift) && r.latches i) := by
  rw [acknowledges]
  cases hs : r.state with
  | idle => simp only [Reg.next, latches, hs]; split_ifs <;> simp_all
  | shift =>
    simp only [Reg.next, latches, hs, Reg.raise, Reg.lower]
    split_ifs <;> simp_all
  | wai =>
    have hready := hwai hs
    simp only [Reg.next, latches, hs]
    split_ifs <;> simp_all

/-- All but the samples. -/
def Reg.control : Reg W := { r with tdo := 0 }

variable {r} in
theorem Reg.eq_of_control {r' : Reg W} (h : r'.control = r.control) :
    r' = { r with tdo := r'.tdo } := by
  cases r
  cases r'
  simp_all [control]

variable {r} in
/-- What is sampled makes no difference but to the samples. -/
theorem Reg.control_next {r' : Reg W} (h : r'.control = r.control) (b : Bool) :
    (r'.next clkDiv2 { i with tdo := b }).control = (r.next clkDiv2 i).control := by
  rw [Reg.eq_of_control h]
  cases hs : r.state <;> simp only [Reg.next, hs, Reg.raise, Reg.lower]
  all_goals split_ifs <;> simp [control, hs]

section

variable {clkDiv2} {job : Job W} {tap : AxisToJtag.Tap} {pos : Pos} {s : Reg W}
  {h : List AxisToJtag.Edge}

theorem At.wai_eq {job : Job W} (hat : At job tap clkDiv2 pos s h)
    (hw : s.state = .wai) : s.oValid = true ∧ s.iReady = false := by
  cases hat with
  | waiMore => exact ⟨rfl, rfl⟩
  | waiEnd => exact ⟨rfl, rfl⟩
  | _ => cases hw

theorem At.tck_of_ack {job : Job W} (hat : At job tap clkDiv2 pos s h)
    (hs : s.state = .shift) (hready : s.iReady = true) : s.tck = false := by
  cases hat with
  | low => rfl
  | high => cases hready
  | tail => cases hready
  | idle => cases hs
  | waiMore => cases hs
  | waiEnd => cases hs

theorem At.waits_of_ne_wai {job : Job W} (hat : At job tap clkDiv2 pos s h)
    (hw : s.state ≠ .wai) : pos.waits = false := by
  cases hat with
  | waiMore => exact absurd rfl hw
  | waiEnd => exact absurd rfl hw
  | _ => rfl

end

end JtagSerDesCore

namespace AxisToJtagCore

open AxisToJtag JtagSerDesCore AxisToJtagPkg

variable {W : ℕ}

section

variable (r : Reg W) (m : Axis W) (rdy : Bool) (s : JtagSerDesCore.Reg W)

/-- All but the TDO word. -/
def Reg.control : Reg W := { r with tdo := 0 }

variable {r} in
theorem Reg.eq_of_control {r' : Reg W} (h : r'.control = r.control) :
    r' = { r with tdo := r'.tdo } := by
  cases r
  cases r'
  simp_all [control]

variable {r} in
theorem Reg.control_fsm {r' : Reg W} (h : r'.control = r.control) (tdiReady : Bool) :
    (r'.fsm m rdy tdiReady).control = (r.fsm m rdy tdiReady).control := by
  rw [Reg.eq_of_control h]
  cases hs : r.state <;> simp only [Reg.fsm, hs]
  all_goals split_ifs <;> simp [control, hs]

variable {r s} in
/-- The TDO words make no difference but to themselves. -/
theorem Reg.control_next {r' : Reg W} {s' : JtagSerDesCore.Reg W} (h : r'.control = r.control)
    (hs : s'.control = s.control) : (r'.next m rdy s').control = (r.next m rdy s).control := by
  have hready : s'.iReady = s.iReady := by rw [JtagSerDesCore.Reg.eq_of_control hs]
  have hvalid : s'.oValid = s.oValid := by rw [JtagSerDesCore.Reg.eq_of_control hs]
  have hfsm := Reg.control_fsm m rdy h s.iReady
  rw [Reg.next, Reg.next, hready, hvalid]
  generalize r'.fsm m rdy s.iReady = v' at hfsm
  generalize r.fsm m rdy s.iReady = v at hfsm
  rw [Reg.eq_of_control h, Reg.eq_of_control hfsm]
  simp only [Reg.output, Reg.mAxisTdo, Reg.tdoReady]
  by_cases hout : (r.tdoValid && r.tdoPass && rdy) = true <;>
    by_cases hin : (s.oValid && (!r.tdoValid || rdy && r.tdoPass)) = true <;>
    simp only [hout, hin, if_true]
  all_goals split_ifs <;> rfl

def Reg.starts : Bool := decide (r.state = .getTms) && (r.sReady && m.tValid) && !m.tLast

/-- A word of the serializer is taken over. -/
def Reg.takes : Bool := s.oValid && r.tdoReady rdy

theorem Reg.next_iCnt : (r.next m rdy s).iCnt =
    if r.state = .idle then 0 else r.iCnt + BitVec.ofNat 2 (r.starts m).toNat := by
  have hout : (r.next m rdy s).iCnt = (r.fsm m rdy s.iReady).iCnt := by
    simp only [Reg.next, Reg.output]
    split_ifs <;> rfl
  rw [hout]
  cases hs : r.state with
  | getTms =>
    simp only [Reg.fsm, Reg.starts, hs]
    cases r.sReady && m.tValid <;> cases m.tLast <;> simp
    all_goals split_ifs <;> rfl
  | _ =>
    simp only [Reg.fsm, Reg.starts, hs]
    split_ifs <;> simp_all

theorem Reg.next_oCnt : (r.next m rdy s).oCnt =
    if r.takes rdy s then r.oCnt + 1 else if r.state = .idle then 0 else r.oCnt := by
  have hout : (r.next m rdy s).oCnt =
      if r.takes rdy s then r.oCnt + 1 else (r.fsm m rdy s.iReady).oCnt := by
    simp only [Reg.next, Reg.output, Reg.takes]
    by_cases hin : (s.oValid && r.tdoReady rdy) = true <;> simp only [hin, if_true]
    all_goals split_ifs <;> rfl
  rw [hout]
  cases hs : r.state <;> simp only [Reg.fsm, hs]
  all_goals split_ifs <;> simp_all

/-- A pair stays on offer until the serializer is ready. -/
theorem Reg.next_offer (h : r.tdiValid = true → r.state = .shift) :
    (r.tdiValid = true → (r.next m rdy s).tdiValid = !s.iReady ∧
      (r.next m rdy s).tms = r.tms ∧ (r.next m rdy s).tdi = r.tdi) := by
  intro hv
  have hs := h hv
  have hfsm : (r.fsm m rdy s.iReady).tdiValid = !s.iReady ∧
      (r.fsm m rdy s.iReady).tms = r.tms ∧ (r.fsm m rdy s.iReady).tdi = r.tdi := by
    simp only [Reg.fsm, hs, hv]
    split_ifs <;> simp_all
  simp only [Reg.next, Reg.output]
  split_ifs <;> exact hfsm

end

/-- The master has a word, the slave is ready, and TDO. -/
structure Ev where
  valid : Bool
  ready : Bool
  tdo : Bool

/-- The core and the serializer, and the words that the master has still to send. `started` and
`done` count the words of the frame that `iCnt` and `oCnt` count. The lists are the pairs that the
core has put on offer and the serializer has latched, and the TDO words that the serializer has
completed and the core has taken over. -/
structure Link (W : ℕ) where
  core : Reg W
  ser : JtagSerDesCore.Reg W
  src : List (BitVec W × Bool)
  started : ℕ
  done : ℕ
  offered : List (BitVec W × BitVec W)
  latched : List (BitVec W × BitVec W)
  completed : List (BitVec W)
  taken : List (BitVec W)

namespace Link

def init (src : List (BitVec W × Bool)) : Link W where
  core := .init W
  ser := .init W
  src := src
  started := 0
  done := 0
  offered := []
  latched := []
  completed := []
  taken := []

def mAxisTmsTdi (l : Link W) (ev : Ev) : Axis W :=
  match l.src with
  | [] => Axis.init W
  | (data, last) :: _ => ⟨ev.valid, last, data⟩

def cycle (clkDiv2 : ℕ) (l : Link W) (ev : Ev) : Link W :=
  let i := l.core.serIn ev.ready ev.tdo
  let core := l.core.next (l.mAxisTmsTdi ev) ev.ready l.ser
  let ser := l.ser.next clkDiv2 i
  { core := core
    ser := ser
    src := if l.core.sReady && (l.mAxisTmsTdi ev).tValid then l.src.tail else l.src
    started :=
      if l.core.state = .idle then 0
      else if core.iCnt = l.core.iCnt then l.started else l.started + 1
    done :=
      if l.core.state = .idle then 0 else if core.oCnt = l.core.oCnt then l.done else l.done + 1
    offered :=
      if core.tdiValid && !l.core.tdiValid then l.offered ++ [(core.tms, core.tdi)]
      else l.offered
    latched := if l.ser.latches i then l.latched ++ [(ser.tms, ser.tdi)] else l.latched
    completed := if l.ser.completes then l.completed ++ [ser.dataOut] else l.completed
    taken := if l.core.takes ev.ready l.ser then l.taken ++ [l.ser.dataOut] else l.taken }

def run (clkDiv2 : ℕ) (src : List (BitVec W × Bool)) (evs : ℕ → Ev) (t : ℕ) : Link W :=
  runAt (cycle clkDiv2) (init src) evs t

/-- The pair on offer, unless it is just acknowledged. -/
def onOffer (l : Link W) : List (BitVec W × BitVec W) :=
  if l.core.tdiValid && !l.ser.acknowledges then [(l.core.tms, l.core.tdi)] else []

def due (l : Link W) : List (BitVec W) := if l.ser.oValid then [l.ser.dataOut] else []

/-- What each of the two relies on in the other. -/
structure Tidy (l : Link W) : Prop where
  wai : l.ser.state = .wai → l.ser.oValid = true ∧ l.ser.iReady = false
  ack : l.ser.state = .shift → l.ser.iReady = true → l.ser.tck = false
  offer : l.core.tdiValid = true → l.core.state = .shift
  free : l.ser.oValid = true → l.ser.state ≠ .wai → l.core.tdoValid = false

/-- No pair and no TDO word is lost or repeated. -/
structure Lossless (l : Link W) : Prop where
  pairs : l.offered = l.latched ++ l.onOffer
  words : l.completed = l.taken ++ l.due

variable {clkDiv2 : ℕ} {l : Link W}

theorem Tidy.tdoReady (h : Tidy l) (hv : l.ser.oValid = true) (hw : l.ser.state ≠ .wai)
    (rdy : Bool) : l.core.tdoReady rdy = true := by
  simp [Reg.tdoReady, h.free hv hw]

theorem Tidy.words_next (ht : Tidy l) (h : l.completed = l.taken ++ l.due) (ev : Ev) :
    (l.cycle clkDiv2 ev).completed = (l.cycle clkDiv2 ev).taken ++ (l.cycle clkDiv2 ev).due := by
  by_cases hw : l.ser.state = .wai
  · have hvalid := (ht.wai hw).1
    have hcompletes : l.ser.completes = false := by simp [JtagSerDesCore.Reg.completes, hw]
    have hin : (l.core.serIn ev.ready ev.tdo).dataOutReady = l.core.tdoReady ev.ready := rfl
    simp only [due, hvalid, if_true] at h
    cases hready : l.core.tdoReady ev.ready with
    | false =>
      have hser : (l.cycle clkDiv2 ev).ser = l.ser := by
        simp [cycle, JtagSerDesCore.Reg.next, hw, hin, hready]
      simp only [due, hser]
      simp [cycle, hcompletes, Reg.takes, hvalid, hready, h]
    | true =>
      have hser : (l.cycle clkDiv2 ev).ser.oValid = false := by
        simp only [cycle, JtagSerDesCore.Reg.next, hw, hin, hready]
        split_ifs <;> rfl
      simp only [due, hser]
      simp [cycle, hcompletes, Reg.takes, hvalid, hready, h]
  · have htaken : (l.cycle clkDiv2 ev).taken = l.completed := by
      rw [h]
      cases hvalid : l.ser.oValid with
      | false => simp [cycle, due, Reg.takes, hvalid]
      | true => simp [cycle, due, Reg.takes, hvalid, ht.tdoReady hvalid hw]
    have hser : (l.cycle clkDiv2 ev).ser.oValid = l.ser.completes :=
      JtagSerDesCore.Reg.next_oValid clkDiv2 _ _ hw
    rw [htaken, due, hser]
    cases hcompletes : l.ser.completes <;> simp [cycle, hcompletes]

theorem latches_of_not_valid (hv : l.core.tdiValid = false) (ev : Ev) :
    l.ser.latches (l.core.serIn ev.ready ev.tdo) = false := by
  cases hs : l.ser.state <;> simp [JtagSerDesCore.Reg.latches, hs, Reg.serIn, hv]

theorem Tidy.pairs_next (ht : Tidy l) (h : l.offered = l.latched ++ l.onOffer) (ev : Ev) :
    (l.cycle clkDiv2 ev).offered =
      (l.cycle clkDiv2 ev).latched ++ (l.cycle clkDiv2 ev).onOffer := by
  have hack : (l.cycle clkDiv2 ev).ser.acknowledges =
      (decide (l.ser.state = .shift) && l.ser.latches (l.core.serIn ev.ready ev.tdo)) :=
    JtagSerDesCore.Reg.next_acknowledges clkDiv2 _ _ fun hw => (ht.wai hw).2
  cases hv : l.core.tdiValid with
  | false =>
    have hno := latches_of_not_valid hv ev
    have hlatched : (l.cycle clkDiv2 ev).latched = l.offered := by
      rw [h]
      simp [cycle, hno, onOffer, hv]
    rw [hlatched, onOffer, hack, hno]
    simp only [cycle, hv, Bool.not_false, Bool.and_true, Bool.and_false]
    split_ifs <;> simp
  | true =>
    have hcore : (l.cycle clkDiv2 ev).core.tdiValid = !l.ser.iReady ∧
        (l.cycle clkDiv2 ev).core.tms = l.core.tms ∧ (l.cycle clkDiv2 ev).core.tdi = l.core.tdi :=
      Reg.next_offer _ _ _ _ ht.offer hv
    have hoffered : (l.cycle clkDiv2 ev).offered = l.offered := by simp [cycle, hv]
    have hlatch : (l.cycle clkDiv2 ev).latched =
        if l.ser.latches (l.core.serIn ev.ready ev.tdo) then
          l.latched ++ [(l.core.tms, l.core.tdi)] else l.latched := by
      have hload := l.ser.next_of_latches clkDiv2 (l.core.serIn ev.ready ev.tdo)
      simp only [cycle]
      split_ifs with hl
      · rw [hload hl]
        rfl
      · rfl
    have hvalid : (l.core.serIn ev.ready ev.tdo).dataInValid = true := hv
    rw [hoffered, h, hlatch, onOffer, onOffer, hack, hcore.1, hcore.2.1, hcore.2.2, hv]
    cases hs : l.ser.state with
    | idle =>
      -- the serializer takes the pair when it is ready
      have hl : l.ser.latches (l.core.serIn ev.ready ev.tdo) = l.ser.iReady := by
        simp [JtagSerDesCore.Reg.latches, hs, hvalid]
      rw [hl, JtagSerDesCore.Reg.acknowledges, hs]
      cases l.ser.iReady <;> simp
    | shift =>
      cases hready : l.ser.iReady with
      | true =>
        -- the pair has been taken in passing
        have hl : l.ser.latches (l.core.serIn ev.ready ev.tdo) = false := by
          simp [JtagSerDesCore.Reg.latches, hs, ht.ack hs hready]
        rw [hl, JtagSerDesCore.Reg.acknowledges, hs, hready]
        simp
      | false =>
        rw [JtagSerDesCore.Reg.acknowledges, hs, hready]
        cases l.ser.latches (l.core.serIn ev.ready ev.tdo) <;> simp
    | wai =>
      have hl : l.ser.latches (l.core.serIn ev.ready ev.tdo) = false := by
        simp [JtagSerDesCore.Reg.latches, hs]
      rw [hl, JtagSerDesCore.Reg.acknowledges, hs, (ht.wai hs).2]
      simp

end Link

end AxisToJtagCore

end XvcSupport
