import XvcSupport.JtagTap

namespace XvcSupport.Jtag2BSCAN

open JtagTapIR (Generics RegN RegP)

variable {L : ℕ} (g : Generics L)

structure Reg where
  tdo : Bool
  captureDR : Bool
  shiftDR : Bool
  updateDR : Bool
  selUSER : Bool
  drckSel : Bool
deriving DecidableEq

def Reg.init : Reg where
  tdo := false
  captureDR := false
  shiftDR := false
  updateDR := false
  selUSER := false
  drckSel := false

/-- The registers of the state machine, of the TAP and of the bridge. -/
structure St (L : ℕ) where
  fsm : JtagTapFsm.Reg
  rn : RegN L
  rp : RegP L
  r : Reg
deriving DecidableEq

def St.init : St L where
  fsm := .init
  rn := .init g
  rp := .init L
  r := .init

def St.testLogicReset (s : St L) : Bool := s.fsm.testLogicReset
def St.captureIR (s : St L) : Bool := s.fsm.capture && s.fsm.scanIR
def St.shiftIR (s : St L) : Bool := s.fsm.shift && s.fsm.scanIR
def St.updateIR (s : St L) : Bool := s.fsm.update && s.fsm.scanIR
def St.captureDR (s : St L) : Bool := s.fsm.capture && s.fsm.scanDR
def St.shiftDR (s : St L) : Bool := s.fsm.shift && s.fsm.scanDR
def St.updateDR (s : St L) : Bool := s.fsm.update && s.fsm.scanDR

def St.rnin (s : St L) : RegN L := s.rn.next g s.rp s.testLogicReset s.updateIR

def St.rpin (s : St L) (jtdi : Bool) : RegP L :=
  s.rp.next g s.rn jtdi s.testLogicReset s.captureIR s.shiftIR s.captureDR s.shiftDR

def St.selUSERTap (s : St L) : Bool := (s.rnin g).selUser

def St.tapTdo (s : St L) : Bool := JtagTapIR.tdo s.rp s.shiftIR

/-- The next value of `selUSER`, which `drckSel` also uses. -/
def St.selUSERin (s : St L) : Bool :=
  if s.testLogicReset then false
  else if s.updateIR then s.selUSERTap g
  else s.r.selUSER

/-- `P_COMB`; `tdo` comes from the user register. -/
def St.rin (s : St L) (tdo : Bool) : Reg where
  tdo := (if s.selUSERTap g && !s.shiftIR then tdo else s.tapTdo) || !(s.shiftDR || s.shiftIR)
  captureDR := s.captureDR
  shiftDR := s.shiftDR
  updateDR := s.updateDR
  selUSER := s.selUSERin g
  drckSel := (s.captureDR || s.shiftDR) && s.selUSERin g

def St.capture (s : St L) : Bool := s.r.captureDR
def St.shift (s : St L) : Bool := s.r.shiftDR
def St.reset (s : St L) : Bool := s.testLogicReset
def St.jtdo (s : St L) : Bool := s.r.tdo
def St.updateSel (s : St L) : Bool := s.updateDR

/-- An edge of TCK with the inputs around it. -/
structure Edge where
  rising : Bool
  tms : Bool
  tdi : Bool
  tdo : Bool
deriving DecidableEq, Repr

def St.edge (s : St L) (e : Edge) : St L :=
  if e.rising then { s with fsm := s.fsm.next e.tms, rp := s.rpin g e.tdi }
  else { s with rn := s.rnin g, r := s.rin g e.tdo }

/-- The registers after some edges. -/
def after (es : List Edge) : St L := es.foldl (St.edge g) (.init g)

def St.sel (s : St L) : Bool := s.r.selUSER && !s.testLogicReset

def St.drck (s : St L) (jtck : Bool) : Bool :=
  (jtck && s.r.drckSel) || (!s.r.drckSel && s.sel)

def St.update (s : St L) : Bool := s.r.updateDR

/-- The outputs `SEL`, `DRCK` and `UPDATE` are registers of their own; nothing sets them before
the first reset or edge. -/
structure CeSt (L : ℕ) extends St L where
  selReg : Option Bool
  drckReg : Option Bool
  updateReg : Option Bool
deriving DecidableEq

def CeSt.init : CeSt L := { St.init g with selReg := none, drckReg := none, updateReg := none }

/-- The inputs at a rising edge of `clk`. -/
structure ClkCycle where
  rst : Bool
  jtckPosedge : Bool
  jtckNegedge : Bool
  jtck : Bool
  jtms : Bool
  jtdi : Bool
  tdo : Bool
deriving DecidableEq, Repr

def CeSt.afterRst : CeSt L :=
  { St.init g with selReg := some false, drckReg := some false, updateReg := some false }

def CeSt.next (s : CeSt L) (c : ClkCycle) : CeSt L :=
  if c.rst then CeSt.afterRst g
  else
    let rin := s.rin g c.tdo
    let testLogicResetPredict := s.fsm.nextStateTLR c.jtms
    { fsm := if c.jtckPosedge then s.fsm.next c.jtms else s.fsm
      rp := if c.jtckPosedge then s.rpin g c.jtdi else s.rp
      rn := if c.jtckNegedge then s.rnin g else s.rn
      r := if c.jtckNegedge then rin else s.r
      updateReg :=
        if c.jtckNegedge then some rin.updateDR
        else if c.jtckPosedge then some false
        else s.updateReg
      selReg :=
        if testLogicResetPredict && c.jtckPosedge then some false
        else if c.jtckNegedge then some rin.selUSER
        else s.selReg
      drckReg :=
        if testLogicResetPredict && c.jtckPosedge then some false
        else if c.jtckNegedge || c.jtckPosedge then
          some ((c.jtck && rin.drckSel) || (!rin.drckSel && rin.selUSER))
        else s.drckReg }

/-- The cycle that stands for an edge: one enable, with JTCK at its new level. -/
def Edge.pulse (e : Edge) : ClkCycle where
  rst := false
  jtckPosedge := e.rising
  jtckNegedge := !e.rising
  jtck := e.rising
  jtms := e.tms
  jtdi := e.tdi
  tdo := e.tdo

/-- A cycle without reset and without an enable. -/
def ClkCycle.Idle (c : ClkCycle) : Prop :=
  c.rst = false ∧ c.jtckPosedge = false ∧ c.jtckNegedge = false

/-- The cycles of `clk` that stand for the edges, with idle ones anywhere. -/
inductive Pulses : List ClkCycle → List Edge → Prop
  | nil : Pulses [] []
  | idle {cs es} (c : ClkCycle) : Pulses cs es → c.Idle → Pulses (cs ++ [c]) es
  | edge {cs es} (e : Edge) : Pulses cs es → Pulses (cs ++ [e.pulse]) (es ++ [e])

@[simp] theorem CeSt.next_idle (s : CeSt L) {c : ClkCycle} (h : c.Idle) : s.next g c = s := by
  obtain ⟨hr, hp, hn⟩ := h
  simp [CeSt.next, hr, hp, hn]

@[simp] theorem CeSt.next_pulse (s : CeSt L) (e : Edge) :
    (s.next g e.pulse).toSt = s.toSt.edge g e := by
  cases hr : e.rising <;> simp [CeSt.next, Edge.pulse, St.edge, hr]

theorem toSt_eq {cs : List ClkCycle} {es : List Edge} (h : Pulses cs es) (c : CeSt L)
    (hc : c.toSt = .init g) : (cs.foldl (CeSt.next g) c).toSt = after g es := by
  induction h with
  | nil => exact hc
  | idle d _ hd ih => simpa [hd] using ih
  | edge e _ ih =>
    rw [List.foldl_append, List.foldl_cons, List.foldl_nil, CeSt.next_pulse, ih]
    simp [after]

open JtagTapFsm (TapState)

theorem init_fsm : (St.init g).fsm = TapState.testLogicReset.encode := rfl

@[simp] theorem edge_fsm (s : St L) (e : Edge) :
    (s.edge g e).fsm = if e.rising then s.fsm.next e.tms else s.fsm := by
  unfold St.edge
  split_ifs <;> rfl

/-- The state of the TAP after some edges. -/
def tapState (es : List Edge) : TapState :=
  es.foldl (fun t e => if e.rising then t.next e.tms else t) .testLogicReset

theorem after_fsm (es : List Edge) : (after g es).fsm = (tapState es).encode := by
  induction es using List.reverseRecOn with
  | nil => rfl
  | append_singleton es e ih =>
    unfold after tapState at ih ⊢
    simp only [List.foldl_append, List.foldl_cons, List.foldl_nil, edge_fsm, ih]
    split_ifs
    · exact JtagTapFsm.encode_next _ _
    · rfl

end XvcSupport.Jtag2BSCAN
