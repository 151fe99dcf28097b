import XvcSupport.Core
import XvcSupport.Runs

/-!
# The AxisToJtag entity

The protocol state machine with its reply memory, the output selector and the stream
core, clocked together, between a stream master that offers request frames with gaps of
its own and a stream slave that takes words when it likes.
-/

namespace XvcSupport

namespace AxiStreamSelector

variable {W : ℕ}

def rdyLoc (streamBuf : Axis W) (tReady : Bool) : Bool := !streamBuf.tValid || tReady

/-- `P_COMB`: the selected input goes into the buffer. -/
def next (streamBuf : Axis W) (sel : Bool) (mIb0 mIb1 : Axis W) (tReady : Bool) : Axis W :=
  if rdyLoc streamBuf tReady then if sel then mIb1 else mIb0 else streamBuf

end AxiStreamSelector

namespace AxisToJtag

open AxisToJtagPkg

/-- `StdRtlPkg.isPowerOf2`. -/
def isPowerOf2 (number : ℕ) : Bool := number != 0 && number &&& (number - 1) == 0

/-- `StdRtlPkg.bitSize`. -/
def bitSize (number : ℕ) : ℕ :=
  if number = 0 ∨ number = 1 then 1
  else if isPowerOf2 number then log2 number + 1
  else log2 number

inductive StateType
  | idle
  | sendRep
  | waitStarted
  | waitHdrReady
  | waitStopped
  | replay
deriving DecidableEq, Repr

variable (g : Generics)

/-- The register record; `nstate` is constant and left out. -/
structure Reg (W : ℕ) where
  state : StateType
  replyData : Axis W
  tLastSeen : Bool
  ackInput : Bool
  passTdo : Bool
  passTdi : Bool
  ridx : ℕ
  widx : ℕ
  memValid : Bool
  xid : BitVec 8

def Reg.init (W : ℕ) : Reg W where
  state := .idle
  replyData := Axis.init W
  tLastSeen := false
  ackInput := false
  passTdo := false
  passTdi := false
  ridx := 0
  widx := 0
  memValid := false
  xid := 0

/-- The next value of an `AddrType`, which has one guard bit. -/
def incAddr (idx : ℕ) : ℕ := (idx + 1) % 2 ^ (bitSize g.memDepth + 1)

/-- The combinatorial signals that `P_COMB` and `P_RAM` look at. -/
structure CombSig (W : ℕ) where
  mAxisReq : Axis W
  mTdo : Axis W
  coreRunning : Bool
  locConsumed : Bool
  lastReq : Bool
  lastTdi : Bool
  lastTdo : Bool
  tdoWen : Bool
  tdoRen : Bool

variable {g}

def sendHeaderNow (v : Reg g.W) : Reg g.W :=
  { v with
    replyData := { v.replyData with tValid := true, tLast := true }
    state := .sendRep }

/-- `IDLE_S` of `P_COMB`. -/
def Reg.idle (r : Reg g.W) (m : Axis g.W) : Reg g.W :=
  if m.tValid then
    -- the header is echoed as reply
    let v := { r with
      replyData := { m with tValid := false }
      ackInput := true
      tLastSeen := m.tLast
      ridx := 0 }
    if getVersion m.tData ≠ proVersn then
      sendHeaderNow { v with replyData := { v.replyData with
        tData := setErr errBadVersion (setVersion proVersn m.tData) } }
    else if getCommand m.tData = cmdQuery then
      sendHeaderNow { v with
        replyData := { v.replyData with tData := setQueryData g m.tData }
        -- assume a new connection
        memValid := false }
    else if getCommand m.tData = cmdTrans then
      if m.tLast || !checkLen g m.tData then
        sendHeaderNow { v with replyData := { v.replyData with
          tData := setErr errTruncated m.tData } }
      else if xidIsNew g m.tData r.xid r.memValid then
        { v with
          widx := 0
          xid := getXid m.tData
          state := .waitStarted
          -- pass on to the core
          ackInput := false
          passTdi := true
          memValid := false }
      else
        { v with
          replyData := { v.replyData with tValid := true, tLast := false }
          state := .replay
          ridx := 1 }
    else
      sendHeaderNow { v with replyData := { v.replyData with
        tData := setErr errBadCommand m.tData } }
  else { r with tLastSeen := false }

/-- `WAIT_STARTED_S`: the reply header is not released yet. -/
def Reg.waitStarted (r : Reg g.W) (c : CombSig g.W) : Reg g.W :=
  if c.coreRunning then
    { r with
      passTdi := r.passTdi && !c.lastTdi
      state := .waitHdrReady
      replyData := { r.replyData with tValid := true } }
  else if c.lastReq then
    -- early TLAST, before the core has started
    sendHeaderNow { r with
      replyData := { r.replyData with tData := setErr errTruncated r.replyData.tData }
      passTdi := false
      tLastSeen := true }
  else r

/-- `SEND_REP_S`: the request is absorbed while the reply goes out. -/
def Reg.sendRep (r : Reg g.W) (c : CombSig g.W) : Reg g.W :=
  let tLastSeen := r.tLastSeen || c.lastReq
  let tValid := r.replyData.tValid && !c.locConsumed
  { r with
    tLastSeen := tLastSeen
    ackInput := r.ackInput && !tLastSeen
    replyData := { r.replyData with tValid := tValid }
    state := if tLastSeen && !tValid then .idle else .sendRep }

def Reg.waitHdrReady (r : Reg g.W) (c : CombSig g.W) : Reg g.W :=
  let v := { r with passTdi := r.passTdi && !c.lastTdi }
  if c.locConsumed then
    -- the reply is the core's from here on
    { v with
      passTdo := true
      replyData := { r.replyData with tValid := false }
      state := .waitStopped }
  else v

def Reg.waitStopped (r : Reg g.W) (c : CombSig g.W) : Reg g.W :=
  let passTdi := r.passTdi && !c.lastTdi
  let passTdo := r.passTdo && !c.lastTdo
  let v := { r with
    passTdi := passTdi
    passTdo := passTdo
    state := if passTdi || passTdo then .waitStopped else .idle }
  -- a TDO word goes out, and into the memory
  if 0 < g.memDepth ∧ c.tdoWen then
    { v with memValid := r.memValid || c.mTdo.tLast, widx := incAddr g r.widx }
  else v

/-- `REPLAY_S`: the stored words follow the header while the request is absorbed. -/
def Reg.replay (r : Reg g.W) (c : CombSig g.W) (memOut : BitVec g.W) : Reg g.W :=
  let v := { r with ackInput := r.ackInput && !c.lastReq }
  let v := if c.locConsumed then
      let d := { r.replyData with tData := memOut }
      if r.ridx = r.widx then { v with replyData := { d with tLast := true }, ridx := 0 }
      -- the last word has gone; what `memOut` holds now is not read
      else if r.replyData.tLast then { v with replyData := { d with tValid := false }, ridx := 0 }
      else { v with replyData := d, ridx := incAddr g r.ridx }
    else v
  { v with state := if v.ackInput || v.replyData.tValid then .replay else .idle }

/-- `P_COMB`. -/
def Reg.next (r : Reg g.W) (c : CombSig g.W) (memOut : BitVec g.W) : Reg g.W :=
  match r.state with
  | .idle => r.idle c.mAxisReq
  | .waitStarted => r.waitStarted c
  | .sendRep => r.sendRep c
  | .waitHdrReady => r.waitHdrReady c
  | .waitStopped => r.waitStopped c
  | .replay => r.replay c memOut

variable (g)

/-- The registers of the entity, the buffer memory and its output register, with the words the
master has still to send, the words the slave has taken and the edges of TCK so far.  The memory is
total: where VHDL has no word to read, from index `MEM_DEPTH_G` on, there is an arbitrary one. -/
structure Dev where
  r : Reg g.W
  bufMem : ℕ → BitVec g.W
  memOut : BitVec g.W
  streamBuf : Axis g.W
  core : AxisToJtagCore.Reg g.W
  ser : JtagSerDesCore.Reg g.W
  src : List (BitVec g.W × Bool)
  offer : Bool
  out : List (BitVec g.W × Bool)
  hist : List Edge

/-- After reset; what the memory holds is unknown. -/
def Dev.init (bufMem : ℕ → BitVec g.W) (memOut : BitVec g.W) (src : List (BitVec g.W × Bool)) :
    Dev g where
  r := Reg.init g.W
  bufMem := bufMem
  memOut := memOut
  streamBuf := Axis.init g.W
  core := AxisToJtagCore.Reg.init g.W
  ser := JtagSerDesCore.Reg.init g.W
  src := src
  offer := false
  out := []
  hist := []

variable {g}

/-- The request stream: a word that has been offered stays until it is taken. -/
def Dev.mAxisReq (s : Dev g) (vld : Bool) : Axis g.W :=
  match s.src with
  | [] => Axis.init g.W
  | (data, last) :: _ => ⟨s.offer || vld, last, data⟩

/-- `P_MUX_TDI`, towards the core. -/
def Dev.mTdi (s : Dev g) (vld : Bool) : Axis g.W :=
  { s.mAxisReq vld with tValid := (s.mAxisReq vld).tValid && s.r.passTdi }

/-- `P_MUX_TDI`, towards the master. -/
def Dev.sAxisReqLoc (s : Dev g) : Bool := if s.r.passTdi then s.core.sReady else s.r.ackInput

def Dev.reqXfer (s : Dev g) (vld : Bool) : Bool := (s.mAxisReq vld).tValid && s.sAxisReqLoc

def Dev.sTdo (s : Dev g) (rdy : Bool) : Bool :=
  s.r.passTdo && AxiStreamSelector.rdyLoc s.streamBuf rdy

def Dev.tdoXfer (s : Dev g) (rdy : Bool) : Bool := s.sTdo rdy && s.core.mAxisTdo.tValid

def Dev.locConsumed (s : Dev g) (rdy : Bool) : Bool :=
  !s.r.passTdo && AxiStreamSelector.rdyLoc s.streamBuf rdy && s.r.replyData.tValid

def Dev.comb (s : Dev g) (vld rdy : Bool) : CombSig g.W where
  mAxisReq := s.mAxisReq vld
  mTdo := s.core.mAxisTdo
  coreRunning := s.core.running
  locConsumed := s.locConsumed rdy
  lastReq := s.reqXfer vld && (s.mAxisReq vld).tLast
  lastTdi := s.r.passTdi && (s.reqXfer vld && (s.mAxisReq vld).tLast)
  lastTdo := s.tdoXfer rdy && s.core.mAxisTdo.tLast
  tdoWen := s.tdoXfer rdy && s.r.passTdo
  tdoRen := if s.r.state = .replay then s.locConsumed rdy else true

/-- `P_RAM`, the write port; an index outside the array is no access. -/
def Dev.writeMem (s : Dev g) (rdy : Bool) : ℕ → BitVec g.W :=
  if s.tdoXfer rdy && s.r.passTdo && decide (s.r.widx < g.memDepth) then
    Function.update s.bufMem s.r.widx s.core.tdo
  else s.bufMem

def Dev.cycle (clkDiv2 : ℕ) (tap : Tap) (s : Dev g) (ev : Bool × Bool) : Dev g :=
  let c := s.comb ev.1 ev.2
  let ser := s.ser.next clkDiv2
    (s.core.serIn (s.sTdo ev.2) (tap s.hist s.ser.pins.1 s.ser.pins.2))
  { r := s.r.next c s.memOut
    bufMem := s.writeMem ev.2
    memOut := if c.tdoRen then s.bufMem s.r.ridx else s.memOut
    streamBuf := AxiStreamSelector.next s.streamBuf s.r.passTdo s.r.replyData s.core.mAxisTdo ev.2
    core := s.core.next (s.mTdi ev.1) (s.sTdo ev.2) s.ser
    ser := ser
    src := if s.reqXfer ev.1 then s.src.tail else s.src
    -- the handshake: what is not taken stays on offer
    offer := (s.mAxisReq ev.1).tValid && !s.reqXfer ev.1
    out := if s.streamBuf.tValid && ev.2 then
        s.out ++ [(s.streamBuf.tData, s.streamBuf.tLast)]
      else s.out
    hist := s.ser.clock ser s.hist }

/-- The words of a frame with their `TLAST` flags. -/
def beats {W : ℕ} : List (BitVec W) → List (BitVec W × Bool)
  | [] => []
  | [w] => [(w, true)]
  | w :: ws => (w, false) :: beats ws

end AxisToJtag
end XvcSupport
