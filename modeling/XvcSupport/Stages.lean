import XvcSupport.Answers
import XvcSupport.Pipeline

/-!
# The stages of the entity

Between frames and within a frame the entity is in one of five stages.  Each says what the
registers hold, which words of the request are still to come and which words of the answer
are still due.
-/

namespace XvcSupport.AxisToJtag

open AxisToJtagPkg AxisToJtagCore JtagSerDesCore

variable {g : Generics} {clkDiv2 : ℕ} {tap : Tap} {s : Dev g} {ev : Bool × Bool}

def offered {W : ℕ} (m : Axis W) : List (BitVec W × Bool) :=
  if m.tValid then [(m.tData, m.tLast)] else []

theorem selector_next {W : ℕ} (streamBuf : Axis W) (sel : Bool) (mIb0 mIb1 : Axis W)
    (tReady : Bool) :
    (if streamBuf.tValid && tReady then [(streamBuf.tData, streamBuf.tLast)] else []) ++
        offered (AxiStreamSelector.next streamBuf sel mIb0 mIb1 tReady) =
      offered streamBuf ++
        if AxiStreamSelector.rdyLoc streamBuf tReady then offered (if sel then mIb1 else mIb0)
        else [] := by
  obtain ⟨v, l, d⟩ := streamBuf
  cases v <;> cases tReady <;> cases sel <;>
    simp [AxiStreamSelector.next, AxiStreamSelector.rdyLoc, offered]

/-- The words that have entered the selector. -/
def Dev.sent (s : Dev g) : List (BitVec g.W × Bool) := s.out ++ offered s.streamBuf

def Dev.loads (s : Dev g) (rdy : Bool) : List (BitVec g.W × Bool) :=
  if AxiStreamSelector.rdyLoc s.streamBuf rdy then
    offered (if s.r.passTdo then s.core.mAxisTdo else s.r.replyData)
  else []

theorem Dev.sent_cycle (s : Dev g) (ev : Bool × Bool) :
    (s.cycle clkDiv2 tap ev).sent = s.sent ++ s.loads ev.2 := by
  have h := selector_next s.streamBuf s.r.passTdo s.r.replyData s.core.mAxisTdo ev.2
  have hout : (s.cycle clkDiv2 tap ev).out = s.out ++
      if s.streamBuf.tValid && ev.2 then [(s.streamBuf.tData, s.streamBuf.tLast)] else [] := by
    simp only [Dev.cycle]
    split_ifs <;> simp
  rw [Dev.sent, hout, List.append_assoc]
  change s.out ++ (_ ++ offered (AxiStreamSelector.next _ _ _ _ _)) = _
  rw [h, Dev.sent, Dev.loads, List.append_assoc]

def Dev.waiting (s : Dev g) : ℕ := s.streamBuf.tValid.toNat

variable (clkDiv2 tap) in
theorem Dev.waiting_cycle (s : Dev g) (ev : Bool × Bool) :
    (s.cycle clkDiv2 tap ev).waiting ≤ s.waiting + (s.loads ev.2).length ∧
      (ev.2 = true → (s.cycle clkDiv2 tap ev).waiting = (s.loads ev.2).length) := by
  obtain ⟨vld, rdy⟩ := ev
  simp only [Dev.waiting, Dev.cycle, Dev.loads, AxiStreamSelector.next, AxiStreamSelector.rdyLoc]
  cases rdy with
  | true =>
    simp only [Bool.or_true, if_true]
    cases hv : (if s.r.passTdo = true then s.core.mAxisTdo else s.r.replyData).tValid <;>
      simp [offered, hv]
  | false =>
    simp only [Bool.or_false]
    split_ifs with hb
    · cases hv : s.core.mAxisTdo.tValid <;> simp [offered, hv]
    · cases hv : s.r.replyData.tValid <;> simp [offered, hv]
    · simp

/-- The core and the serializer are idle, with nothing pending. -/
structure Quiet (s : Dev g) (hist : List Edge) : Prop where
  core : s.core.state = .idle
  tdiValid : s.core.tdiValid = false
  tdoValid : s.core.tdoValid = false
  running : s.core.running = false
  ser : s.ser.state = .idle
  tck : s.ser.tck = false
  lastBit : s.ser.lastBit = false
  oValid : s.ser.oValid = false
  iReady : s.ser.iReady = true
  hist : s.hist = hist

theorem Quiet.rests {hist : List Edge} (h : Quiet s hist) : Rests s.core s.ser :=
  ⟨h.core, h.tdiValid, h.tdoValid, h.running, h.ser, h.tck, h.lastBit, h.oValid, h.iReady⟩

theorem quiet_of_rests {hist : List Edge} (h : Rests s.core s.ser) (hhist : s.hist = hist) :
    Quiet s hist :=
  ⟨h.core, h.tdiValid, h.tdoValid, h.running, h.ser, h.tck, h.lastBit, h.oValid, h.iReady, hhist⟩

theorem Quiet.hist_next {hist : List Edge} (h : Quiet s hist) :
    (s.cycle clkDiv2 tap ev).hist = hist := by
  have hser : (s.cycle clkDiv2 tap ev).ser = _ := h.rests.ser_next _ _
  change s.ser.clock (s.cycle clkDiv2 tap ev).ser s.hist = _
  rw [hser, h.hist]
  simp [JtagSerDesCore.Reg.clock, h.tck]

theorem Quiet.next {hist : List Edge} (h : Quiet s hist)
    (hm : (s.core.sReady && (s.mTdi ev.1).tValid) = false) :
    Quiet (s.cycle clkDiv2 tap ev) hist ∧ (s.cycle clkDiv2 tap ev).core.sReady = true := by
  obtain ⟨hrests, hready⟩ : Rests (s.cycle clkDiv2 tap ev).core (s.cycle clkDiv2 tap ev).ser ∧ _ :=
    h.rests.next hm _ _
  exact ⟨quiet_of_rests hrests h.hist_next, hready⟩

theorem Quiet.start {t : Task g.W} (h : Quiet s t.hist) (hs : s.core.sReady = true)
    (hv : (s.mTdi ev.1).tValid = true) (hl : (s.mTdi ev.1).tLast = false)
    (hlen : getLen (s.mTdi ev.1).tData = t.len) (hpos : 0 < t.payload.length) :
    Joint t tap clkDiv2 (.getTms 0) 0 false (.idle 0 false) (s.cycle clkDiv2 tap ev).core
      (s.cycle clkDiv2 tap ev).ser (s.cycle clkDiv2 tap ev).hist := by
  rw [h.hist_next]
  exact h.rests.start hs hv hl hlen hpos _ _

theorem quiet_of_joint {t : Task g.W} {o : ℕ} {full : Bool} {pos : Pos}
    (hj : Joint t tap clkDiv2 .idle o full pos s.core s.ser s.hist) (ho : o = t.count) :
    Quiet s (t.job.histOf t.count) :=
  quiet_of_rests (hj.rests ho).1 (hj.rests ho).2

/-- The answer to a frame fits into the reply memory. -/
def Fits (g : Generics) : List (BitVec g.W) → Prop
  | [] => False
  | data :: payload => checkLen g data = true →
      g.memDepth = 0 ∨ wordCount g.W (shiftLen g data payload) ≤ g.memDepth

/-- The memory has the place that a word is written to. -/
def Dev.InRange (s : Dev g) (ev : Bool × Bool) : Prop :=
  0 < g.memDepth → (s.comb ev.1 ev.2).tdoWen = true → s.r.widx < g.memDepth

/-- The registers and the memory hold what lasts from frame to frame. -/
structure Stores (s : Dev g) (fw : Fw g.W) : Prop where
  xid : s.r.xid = fw.xid
  memValid : s.r.memValid = fw.memValid
  widx : fw.memValid = true → s.r.widx = fw.mem.length
  pos : fw.memValid = true → 0 < fw.mem.length
  le : fw.memValid = true → fw.mem.length ≤ g.memDepth
  mem : fw.memValid = true → ∀ i < fw.mem.length, s.bufMem i = fw.mem.getD i 0

/-- `IDLE_S`: the next frame has not been looked at. -/
structure AtIdle (s : Dev g) (fw : Fw g.W) (fs : List (List (BitVec g.W))) : Prop where
  state : s.r.state = .idle
  reply : s.r.replyData.tValid = false
  ackInput : s.r.ackInput = false
  passTdo : s.r.passTdo = false
  passTdi : s.r.passTdi = false
  ridx : s.r.ridx = 0
  quiet : Quiet s fw.hist
  stores : Stores s fw
  src : s.src = fs.flatMap beats

/-- `SEND_REP_S`: the answer is the word `w`, and the words `rem` of the request are still to
be absorbed.  A request of one word is known to be complete before its word is taken. -/
structure AtSendRep (s : Dev g) (fw : Fw g.W) (fs : List (List (BitVec g.W))) (w : BitVec g.W)
    (pending : Bool) (rem : List (BitVec g.W)) : Prop where
  state : s.r.state = .sendRep
  reply : s.r.replyData = ⟨pending, true, w⟩
  passTdo : s.r.passTdo = false
  passTdi : s.r.passTdi = false
  ridx : s.r.ridx = 0
  quiet : Quiet s fw.hist
  stores : Stores s fw
  src : s.src = beats rem ++ fs.flatMap beats
  flow : (s.r.ackInput = true ∧ s.r.tLastSeen = false ∧ rem ≠ []) ∨
    (s.r.ackInput = true ∧ s.r.tLastSeen = true ∧ rem.length = 1 ∧ s.offer = true) ∨
    (s.r.ackInput = false ∧ s.r.tLastSeen = true ∧ rem = [] ∧ pending = true)

/-- The registers while a shift request is executed. -/
structure Executes (s : Dev g) (fw : Fw g.W) (data : BitVec g.W) (payload : List (BitVec g.W)) :
    Prop where
  exec : idle g fw.xid fw.memValid data payload.isEmpty = .execute
  tLast : s.r.replyData.tLast = false
  tData : s.r.replyData.tData = data
  ackInput : s.r.ackInput = false
  ridx : s.r.ridx = 0
  memValid : s.r.memValid = false
  xid : s.r.xid = getXid data

/-- `WAIT_STARTED_S` while the core has not taken the header. -/
structure AtStart (s : Dev g) (fw : Fw g.W) (fs : List (List (BitVec g.W))) (data : BitVec g.W)
    (payload : List (BitVec g.W)) : Prop extends Executes s fw data payload where
  state : s.r.state = .waitStarted
  reply : s.r.replyData.tValid = false
  passTdo : s.r.passTdo = false
  passTdi : s.r.passTdi = true
  widx : s.r.widx = 0
  quiet : Quiet s fw.hist
  src : s.src = beats (data :: payload) ++ fs.flatMap beats

/-- `WAIT_STARTED_S`, `WAIT_HDR_READY_S` and `WAIT_STOPPED_S` while the core is at work. -/
structure AtBusy (clkDiv2 : ℕ) (tap : Tap) (s : Dev g) (fw : Fw g.W)
    (fs : List (List (BitVec g.W))) (data : BitVec g.W) (payload : List (BitVec g.W)) (ph : Phase)
    (o : ℕ) (full : Bool) (pos : Pos) : Prop extends Executes s fw data payload where
  state : (s.r.state = .waitStarted ∧ s.r.replyData.tValid = false ∧ s.r.passTdo = false ∧
      (ph = .getTms 0 ∨ ph = .getTdi 0)) ∨
    (s.r.state = .waitHdrReady ∧ s.r.replyData.tValid = true ∧ s.r.passTdo = false ∧
      ph.runs = true) ∨
    (s.r.state = .waitStopped ∧ s.r.replyData.tValid = false ∧ s.r.passTdo = true ∧
      ph.runs = true)
  passTdi : s.r.passTdi = decide (ph.accepted (taskOf fw data payload) < payload.length)
  joint : Joint (taskOf fw data payload) tap clkDiv2 ph o full pos s.core s.ser s.hist
  work : ph ≠ .idle
  src : s.src = beats (payload.drop (ph.accepted (taskOf fw data payload))) ++ fs.flatMap beats

/-- `REPLAY_S` after `k` words of the answer. -/
structure AtReplay (s : Dev g) (fw : Fw g.W) (fs : List (List (BitVec g.W))) (data : BitVec g.W)
    (k : ℕ) (rem : List (BitVec g.W)) : Prop where
  state : s.r.state = .replay
  valid : s.r.replyData.tValid = decide (k ≤ fw.mem.length)
  reply : k ≤ fw.mem.length → s.r.replyData.tData = (data :: fw.mem).getD k 0
  tLast : s.r.replyData.tLast = decide (fw.mem.length ≤ k)
  passTdo : s.r.passTdo = false
  passTdi : s.r.passTdi = false
  ridx : s.r.ridx = if k < fw.mem.length then k + 1 else 0
  memOut : k < fw.mem.length → s.memOut = fw.mem.getD k 0
  ackInput : s.r.ackInput = !rem.isEmpty
  open_ : rem = [] → k ≤ fw.mem.length
  quiet : Quiet s fw.hist
  stores : Stores s fw
  memValid : fw.memValid = true
  src : s.src = beats rem ++ fs.flatMap beats

/-- More than the cycles that any single stage needs while its neighbours do not make it wait. -/
def budget (clkDiv2 : ℕ) : ℕ := (3 * clkDiv2 + 5) * 2 ^ 20 + 2 ^ 22

/-- The budget for `rem` words of the current frame and `rest` words of later ones. -/
def allowance (clkDiv2 rem rest : ℕ) : ℕ := (2 * rest + (2 * rem - 1)) * budget clkDiv2

def phaseRank (W : ℕ) : Phase → ℕ
  | .shift _ => 2 * W + 13
  | .getTms _ | .getTdi _ | .drain | .abort => 2 * W + 12
  | .abortWait => 2 * W + 11
  | .align _ nBits tLast => W + 8 + (W - 1 - nBits) + (!tLast).toNat
  | .discard _ ready => 4 + (!ready).toNat
  | .final => 3
  | .idle | .doomed => 0

/-- The part of the rank that belongs to the protocol state machine. -/
def stateRank : StateType → ℕ
  | .waitStarted => 2
  | .waitHdrReady => 1
  | _ => 0

/-- The words that are due: what has been sent and what the current frame still gets are the
answers to the frames served, from the beginning `fw0` on; the frames `fs` follow. -/
structure Due (tap : Tap) (fw0 : Fw g.W)
    (all : List (List (BitVec g.W))) (s : Dev g) (due : List (BitVec g.W × Bool)) (fw : Fw g.W)
    (fs : List (List (BitVec g.W))) : Prop where
  served : ∃ served, all = served ++ fs ∧ s.sent ++ due = answers tap fw0 served ∧
    afterAll tap fw0 served = fw
  ne_nil : ∀ f ∈ fs, f ≠ []

/-- The frame `f` comes after frames that leave `fw` behind and before the frames `fs`. -/
def Follows (tap : Tap) (fw0 : Fw g.W) (all : List (List (BitVec g.W))) (fw : Fw g.W)
    (f : List (BitVec g.W)) (fs : List (List (BitVec g.W))) : Prop :=
  ∃ served, all = served ++ f :: fs ∧ afterAll tap fw0 served = fw

/-- The words still due while a shift is executed. -/
def shiftDue (tap : Tap) (s : Dev g) (fw : Fw g.W) (data : BitVec g.W)
    (payload : List (BitVec g.W)) (e : ℕ) : List (BitVec g.W × Bool) :=
  if s.r.passTdo then beats ((shiftTdo g tap fw.hist data payload).drop e)
  else beats (serve g tap fw (data :: payload)).1

def Saved (tap : Tap) (s : Dev g) (fw : Fw g.W) (data : BitVec g.W) (payload : List (BitVec g.W))
    (e : ℕ) : Prop :=
  0 < g.memDepth → s.r.widx = e ∧ ∀ i < e, s.bufMem i = (taskOf fw data payload).tdoWord tap i

variable (clkDiv2 tap) (fw0 : Fw g.W)
  (all : List (List (BitVec g.W)))

/-- The stages.  The number bounds the cycles to the end in which nobody makes the entity
wait; a doomed frame has no end. -/
inductive DevAt : ℕ → Dev g → Prop
  | idle {s : Dev g} {fw : Fw g.W} {fs : List (List (BitVec g.W))} (h : AtIdle s fw fs)
      (hd : Due tap fw0 all s [] fw fs) :
      DevAt (2 * s.src.length * budget clkDiv2 + s.waiting) s
  | sendRep {s : Dev g} {fw : Fw g.W} {fs : List (List (BitVec g.W))} {w : BitVec g.W}
      {pending : Bool} {rem : List (BitVec g.W)} (h : AtSendRep s fw fs w pending rem)
      (hd : Due tap fw0 all s (if pending then [(w, true)] else []) fw fs) :
      DevAt (allowance clkDiv2 rem.length (fs.flatMap beats).length + 1 + 2 * pending.toNat +
        s.waiting) s
  | start {s : Dev g} {fw : Fw g.W} {fs : List (List (BitVec g.W))} {data : BitVec g.W}
      {payload : List (BitVec g.W)} (h : AtStart s fw fs data payload)
      (hc : Follows tap fw0 all fw (data :: payload) fs)
      (hd : Due tap fw0 all s (beats (serve g tap fw (data :: payload)).1)
        (serve g tap fw (data :: payload)).2 fs) :
      DevAt (allowance clkDiv2 (payload.length + 1) (fs.flatMap beats).length + 1 +
        (!s.core.sReady).toNat + s.waiting) s
  | busy {s : Dev g} {fw : Fw g.W} {fs : List (List (BitVec g.W))} {data : BitVec g.W}
      {payload : List (BitVec g.W)} {ph : Phase} {o : ℕ} {full : Bool} {pos : Pos}
      (h : AtBusy clkDiv2 tap s fw fs data payload ph o full pos)
      (hc : Follows tap fw0 all fw (data :: payload) fs) (hne : ph ≠ .doomed)
      (hnone : s.r.passTdo = false → o = full.toNat)
      (hsave : Saved tap s fw data payload (o - full.toNat))
      (hd : Due tap fw0 all s (shiftDue tap s fw data payload (o - full.toNat))
        (serve g tap fw (data :: payload)).2 fs) :
      DevAt (allowance clkDiv2 (payload.length - ph.accepted (taskOf fw data payload))
        (fs.flatMap beats).length + pos.rank (taskOf fw data payload).job clkDiv2 +
        phaseRank g.W ph + stateRank s.r.state +
        2 * (shiftDue tap s fw data payload (o - full.toNat)).length + s.waiting) s
  | replay {s : Dev g} {fw : Fw g.W} {fs : List (List (BitVec g.W))} {data : BitVec g.W} {k : ℕ}
      {rem : List (BitVec g.W)} (h : AtReplay s fw fs data k rem)
      (hd : Due tap fw0 all s (beats ((data :: fw.mem).drop k)) fw fs) :
      DevAt (allowance clkDiv2 rem.length (fs.flatMap beats).length + 1 +
        2 * (fw.mem.length + 1 - k) + s.waiting) s
  | doomed {s : Dev g} {fw : Fw g.W} {fs : List (List (BitVec g.W))} {data : BitVec g.W}
      {payload : List (BitVec g.W)} {o : ℕ} {full : Bool} {pos : Pos}
      (h : AtBusy clkDiv2 tap s fw fs data payload .doomed o full pos)
      (hc : Follows tap fw0 all fw (data :: payload) fs) :
      DevAt 0 s

end XvcSupport.AxisToJtag
