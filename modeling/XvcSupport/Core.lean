import XvcSupport.SerDes

namespace XvcSupport

/-- A stream master: a word that may be valid and may be the last of its frame. -/
structure Axis (W : ℕ) where
  tValid : Bool
  tLast : Bool
  tData : BitVec W

def Axis.init (W : ℕ) : Axis W where
  tValid := false
  tLast := false
  tData := 0

namespace AxisToJtagCore

open AxisToJtag

inductive StateType
  | idle
  | getTms
  | getTdi
  | shift
  | align
  | discard
deriving DecidableEq, Repr

variable {W : ℕ}

structure Reg (W : ℕ) where
  state : StateType
  tdi : BitVec W
  tms : BitVec W
  tdo : BitVec W
  nBits : ℕ
  nBitsTot : BitVec 20
  tdiValid : Bool
  sReady : Bool
  tdoValid : Bool
  tdoPass : Bool
  last : Bool
  tLastSeen : Bool
  iCnt : BitVec 2
  oCnt : BitVec 2
  tLast : Bool
  running : Bool

def Reg.init (W : ℕ) : Reg W where
  state := .idle
  tdi := 0
  tms := 0
  tdo := 0
  nBits := 0
  nBitsTot := 0
  tdiValid := false
  sReady := true
  tdoValid := false
  tdoPass := true
  last := false
  tLastSeen := false
  iCnt := 0
  oCnt := 0
  tLast := false
  running := false

def Reg.mAxisTdo (r : Reg W) : Axis W where
  tValid := r.tdoValid && r.tdoPass
  tLast := r.tLast
  tData := r.tdo

def Reg.tdoReady (r : Reg W) (tReady : Bool) : Bool := !r.tdoValid || (tReady && r.tdoPass)

/-- The state machine of `P_COMB`, for the input stream `m`; `tdiReady` comes from the
serializer, and `TLAST_IGNORE_G` is false here. -/
def Reg.fsm (r : Reg W) (m : Axis W) (tReady tdiReady : Bool) : Reg W :=
  match r.state with
  | .idle =>
    let v := { r with
      last := false
      tLastSeen := false
      iCnt := 0
      oCnt := 0
      tLast := false
      tdoPass := true
      sReady := true }
    -- the first word has the number of bits less one
    if r.sReady && m.tValid && !m.tLast then
      { v with nBitsTot := AxisToJtagPkg.getLen m.tData, state := .getTms }
    else v
  | .getTms =>
    if r.sReady && m.tValid then
      if m.tLast then
        -- not enough data: give up, after the answer to the pair before
        if r.iCnt ≠ r.oCnt then
          { r with last := true, tLastSeen := true, nBits := W - 1, state := .align }
        else { r with state := .idle }
      else
        let v := { r with
          tms := m.tData
          state := .getTdi
          iCnt := r.iCnt + 1
          running := true }
        if W ≤ r.nBitsTot.toNat then
          { v with nBits := W - 1, nBitsTot := r.nBitsTot - BitVec.ofNat 20 W }
        else { v with last := true, nBits := r.nBitsTot.toNat }
    else r
  | .getTdi =>
    if r.sReady && m.tValid then
      let v := if m.tLast then
          if r.last then { r with tLastSeen := true }
          -- a premature end; this pair is still shifted
          else { r with
            tLastSeen := true
            nBitsTot := BitVec.ofNat 20 r.nBits
            last := true }
        else r
      { v with tdi := m.tData, tdiValid := true, sReady := false, state := .shift }
    else r
  | .shift =>
    if tdiReady && r.tdiValid then
      if r.last then { r with tdiValid := false }
      else { r with tdiValid := false, state := .getTms, sReady := true }
    else r
  | .align =>
    if r.nBits = W - 1 then
      if r.tdoValid && tReady then { r with tLast := true, state := .discard }
      else { r with tLast := true }
    else { r with tdo := r.tdo >>> 1, nBits := r.nBits + 1 }
  -- words after the requested number of bits
  | .discard =>
    if r.tLastSeen then { r with tdoPass := true }
    else if r.sReady && m.tValid && m.tLast then
      { r with tLastSeen := true, tdoPass := true, sReady := false }
    else { r with sReady := true }

/-- The output handling of `P_COMB`, on top of what the state machine has decided; `tdoValid`
and `tdoData` come from the serializer. -/
def Reg.output (r v : Reg W) (tReady tdoValid : Bool) (tdoData : BitVec W) : Reg W :=
  let v := if r.mAxisTdo.tValid && tReady then
      if r.tLast then { v with running := false, state := .idle, tdoValid := false }
      else { v with tdoValid := false }
    else v
  if tdoValid && r.tdoReady tReady then
    -- the last word is held back until it is aligned
    let v := { v with tdo := tdoData, tdoValid := true, oCnt := r.oCnt + 1 }
    if r.last && v.oCnt == r.iCnt then { v with tdoPass := false, state := .align } else v
  else v

/-- `P_COMB`, next to the serializer in state `s`. -/
def Reg.next (r : Reg W) (m : Axis W) (tReady : Bool) (s : JtagSerDesCore.Reg W) : Reg W :=
  r.output (r.fsm m tReady s.iReady) tReady s.oValid s.dataOut

def Reg.serIn (r : Reg W) (tReady tdo : Bool) : JtagSerDesCore.In W where
  numBits := r.nBits
  dataInTms := r.tms
  dataInTdi := r.tdi
  dataInValid := r.tdiValid
  dataOutReady := r.tdoReady tReady
  tdo := tdo

/-- The input is looked at only when a word is transferred. -/
theorem Reg.next_of_no_word {r : Reg W} {m m' : Axis W} (h : (r.sReady && m.tValid) = false)
    (h' : (r.sReady && m'.tValid) = false) (rdy : Bool) (s : JtagSerDesCore.Reg W) :
    r.next m rdy s = r.next m' rdy s := by
  have hfsm : r.fsm m rdy s.iReady = r.fsm m' rdy s.iReady := by
    cases hs : r.state <;> simp [Reg.fsm, hs, h, h']
  rw [Reg.next, Reg.next, hfsm]

end AxisToJtagCore

end XvcSupport
