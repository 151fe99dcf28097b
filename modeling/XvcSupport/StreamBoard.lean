import XvcSupport.Entity
import XvcSupport.TmemIncoming
import XvcSupport.TmemOutgoing
import XvcSupport.Tmem2BSCANWrapper

/-!
# The TMEM board with streams

Tmem2BSCANWrapper with AxisToJtag behind the two FIFOs of Axis2TmemFifo.  Whatever the bus does in
between, the words that it reads are those of the replies to the frames that it has written.
-/

namespace XvcSupport.Axis2TmemFifo

open AxisToJtag

variable {g : Generics}

/-- Of a word that is not valid only its absence counts. -/
theorem Reg.next_same {r : Reg} {i i' : Inp} (hrst : i.rst = i'.rst) (htmem : i.tmem = i'.tmem)
    (haux : i.auxIn = i'.auxIn) (hready : i.tReady = i'.tReady)
    (hsame : Axis.Same i.axisInpPri i'.axisInpPri) : r.next g i = r.next g i' := by
  obtain ⟨rst, ⟨valid, last, data⟩, ready, tmem, aux⟩ := i
  obtain ⟨rst', ⟨valid', last', data'⟩, ready', tmem', aux'⟩ := i'
  obtain ⟨hvalid, hword⟩ := hsame
  dsimp only at hrst htmem haux hready hvalid hword
  subst hrst htmem haux hready hvalid
  cases valid with
  | true => rw [hword rfl]
  | false =>
    have hwren : r.fifoInpWREN ⟨rst, ⟨false, last, data⟩, ready, tmem, aux⟩ = false := rfl
    have hwren' : r.fifoInpWREN ⟨rst, ⟨false, last', data'⟩, ready, tmem, aux⟩ = false := rfl
    simp only [Reg.next, Reg.seq, hwren, hwren', Bool.false_and]
    rfl

theorem getLsbD_auxNext_high {i : Inp} {k : ℕ} (h1 : 64 ≤ k) (h2 : k < 128) :
    (auxNext g i).getLsbD k =
      if (fifoRegSel g i.tmem).getLsbD 3 = true ∧ i.tmem.we.getLsbD ((k - 64) / 8) = true then
        if g.AUX_RO_M_G.getLsbD k then i.auxIn.getLsbD k else i.tmem.datw.getLsbD (k - 64)
      else i.auxIn.getLsbD k := by
  have hlow : (if (fifoRegSel g i.tmem).getLsbD 2 then writeAux g i 0 i.auxIn
      else i.auxIn).getLsbD k = i.auxIn.getLsbD k := by
    by_cases hsel : (fifoRegSel g i.tmem).getLsbD 2 = true
    · rw [if_pos hsel, getLsbD_writeAux h2, if_neg (by omega)]
    · rw [if_neg hsel]
  rw [auxNext]
  by_cases hsel : (fifoRegSel g i.tmem).getLsbD 3 = true
  · simp only [hsel, if_true, true_and]
    rw [getLsbD_writeAux h2, hlow]
    congr 1
    simp only [h1, true_and, show k < 64 + 64 by omega]
  · simp only [hsel, false_and, if_false, Bool.false_eq_true]
    exact hlow

namespace Incoming

variable {frames : List (List (BitVec 32))} {f : List (BitVec 32)} {s : Incoming}

/-- The words that the bus has still to read. -/
def unread (s : Incoming) : List (BitVec 32) := s.r.fifoInp.queue ++ s.src.map Prod.fst

theorem map_fst_beats (ws : List (BitVec 32)) : (beats ws).map Prod.fst = ws := by
  induction ws with
  | nil => rfl
  | cons w ws ih =>
    rw [beats_cons, List.map_cons, ih]

theorem map_fst_flatMap (fs : List (List (BitVec 32))) :
    (fs.flatMap beats).map Prod.fst = fs.flatten := by
  induction fs with
  | nil => rfl
  | cons f fs ih => rw [List.flatMap_cons, List.map_append, map_fst_beats, ih, List.flatten_cons]

theorem At.reads_unread (h : At frames s) : s.reads ++ s.unread = frames.flatten := by
  cases h with
  | filling done rest left h =>
    rw [unread, h.reads, h.src, h.split, List.map_append, map_fst_beats, map_fst_flatMap,
      ← List.append_assoc s.r.fifoInp.queue, ← h.head, List.flatten_append]
    cases rest with
    | nil => rfl
    | cons f rest => rfl
  | draining done more f got h =>
    rw [unread, h.reads, h.src, h.split, map_fst_flatMap, List.flatten_append, List.flatten_cons]
    have hframe : f ++ more.flatten = got ++ (s.r.fifoInp.queue ++ more.flatten) := by
      rw [← List.append_assoc, ← h.frame]
    rw [hframe, List.append_assoc]

theorem At.behind (h : At frames s) (hf : f ≠ []) :
    At (frames ++ [f]) { s with src := s.src ++ beats f } := by
  cases h with
  | draining done more f' got h =>
    refine .draining done (more ++ [f]) f' got ⟨h.running, h.wcntCnt, h.wcntReg, ?_, h.frame,
      h.queue, ?_, h.reads⟩
    · rw [h.split]
      simp
    · rw [h.src]
      simp
  | filling done rest left h =>
    cases rest with
    | nil =>
      -- nothing was left to come
      have hnil : s.r.fifoInp.queue = [] ∧ left = [] := List.append_eq_nil_iff.mp h.head.symm
      obtain ⟨hqueue, rfl⟩ := hnil
      refine .filling done [f] f ⟨h.running, h.wcntCnt, h.wcntReg, ?_, ?_, fun hf' => absurd hf' hf,
        ?_, h.reads⟩
      · rw [h.split, List.append_nil]
      · rw [hqueue]
        rfl
      · simp [h.src]
    | cons f' rest =>
      refine .filling done (f' :: (rest ++ [f])) left ⟨h.running, h.wcntCnt, h.wcntReg, ?_, h.head,
        fun hnil => absurd (h.last hnil) (by simp), ?_, h.reads⟩
      · rw [h.split]
        simp
      · rw [h.src]
        simp

end Incoming

end XvcSupport.Axis2TmemFifo

namespace XvcSupport.Tmem2BSCANWrapper

open AxisToJtag Axis2TmemFifo

abbrev W_C : ℕ := 4

def NWORDS_C : ℕ := 2048 / W_C

/-- The AxisToJtag of the board; `tckBits` is the code for 80 ns, ten cycles at 125 MHz. -/
abbrev jtag : AxisToJtag.Generics where
  axisWidth := W_C
  memDepth := NWORDS_C
  tckBits := 77
  four_le := by decide
  le_sixteen := by decide
  memDepth_lt := by decide

def streamGenerics (TMEM_CS_G : BitVec 2) : Axis2TmemFifo.Generics where
  TMEM_CS_G := TMEM_CS_G
  AUX_INIT_G := 0
  AUX_RO_M_G := AUX_RO_M_F true
  VERSION_G := VERSION_C

/-- The registers of the board, and the edges of TCK so far. -/
structure StreamBoard where
  fifo : Axis2TmemFifo.Reg
  jtag : Entity jtag
  hist : List Edge

/-- What else enters the board: the lines `bscn_cap` down to `bscn_tdo`, and what is seen on the
lines 127 down to 96 of the feedback, which nothing drives. -/
structure Lines where
  bscn : BitVec 8
  undriven : BitVec 32

namespace StreamBoard

variable (cs : BitVec 2) (tap : Tap) (s : StreamBoard)

def auxIn : BitVec 128 := s.fifo.auxReg

def serDesInVal : Bool := s.auxIn.getLsbD 72

def bb_ena : Bool := s.auxIn.getLsbD 95

def tck : Bool := muxSlv s.bb_ena (s.auxIn.getLsbD 80) s.jtag.ser.tck

def tms : Bool := muxSlv s.bb_ena (s.auxIn.getLsbD 81) s.jtag.ser.pins.1

def tdi : Bool := muxSlv s.bb_ena (s.auxIn.getLsbD 82) s.jtag.ser.pins.2

def tdo : Bool := tap s.hist s.tms s.tdi

/-- The feedback, from bit 127 down; `serDesInRdy` and `serDesOutVal` stay low. -/
def auxOut (a : Lines) : BitVec 128 :=
  a.undriven ++ BitVec.ofBool s.bb_ena ++ a.bscn ++ BitVec.ofBool s.tdi ++ BitVec.ofBool s.tms ++
    BitVec.ofBool s.tck ++ BitVec.ofBool (s.tdo tap) ++ s.auxIn.extractLsb' 80 3 ++ 0#6 ++
    BitVec.ofBool (s.serDesInVal || s.auxIn.getLsbD 73) ++ BitVec.ofBool s.serDesInVal ++ 0#3 ++
    s.auxIn.extractLsb' 0 69

def fifoIn (rst : Bool) (b : Tmem) (a : Lines) : Axis2TmemFifo.Inp where
  rst := rst
  axisInpPri := s.jtag.streamBuf
  tReady := s.jtag.sAxisReq
  tmem := b
  auxIn := s.auxOut tap a

/-- One edge of the clock; an edge of TCK comes with TMS and TDI as they were before it. -/
def clock (rst : Bool) (b : Tmem) (a : Lines) : StreamBoard :=
  let s' : StreamBoard :=
    { s with
      fifo := s.fifo.next (streamGenerics cs) (s.fifoIn tap rst b a)
      jtag :=
        if rst then s.jtag.reset
        else s.jtag.clock CLK_DIV2_G s.fifo.axisOutPri s.fifo.tReadyInp (s.tdo tap) }
  { s' with hist := if s'.tck = s.tck then s.hist else s.hist ++ [⟨s'.tck, s.tms, s.tdi⟩] }

end StreamBoard

/-- The board, the words that the bus has written of a frame, the frames whose end it has written,
and the words that it has read. -/
structure Traffic where
  board : StreamBoard
  cur : List (BitVec 32)
  sent : List (List (BitVec 32))
  reads : List (BitVec 32)

namespace Traffic

variable (cs : BitVec 2) (tap : Tap) (s : Traffic)

def cycle (b : Tmem) (a : Lines) : Traffic :=
  let g := streamGenerics cs
  let i := s.board.fifoIn tap false b a
  let board := s.board.clock cs tap false b a
  { board := board
    cur :=
      if s.board.fifo.fifoOutOwnerAXIS then s.cur
      else if endWrite g i then []
      else if dataWrite g b then s.cur ++ [b.datw.setWidth 32]
      else s.cur
    sent :=
      if !s.board.fifo.fifoOutOwnerAXIS && endWrite g i then s.sent ++ [s.cur] else s.sent
    reads :=
      if s.board.fifo.tmemRDEN g i then s.reads ++ [(board.fifo.tmemDATR g).setWidth 32]
      else s.reads }

/-- The outgoing FIFO, with the words `out` transferred. -/
def outgoing (out : List (BitVec 32 × Bool)) : Outgoing := ⟨s.board.fifo, s.cur, s.sent, out⟩

/-- The words that the entity has still to take. -/
def pending : List (BitVec 32) := (s.outgoing []).pending

/-- The incoming FIFO, with the words `src` still to come. -/
def incoming (src : List (BitVec 32 × Bool)) : Incoming := ⟨s.board.fifo, src, s.reads⟩

end Traffic

end XvcSupport.Tmem2BSCANWrapper

namespace XvcSupport.AxisToJtag

variable {g : Generics} (tap : Tap)

def replyFrames : Fw g.W → List (List (BitVec g.W)) → List (List (BitVec g.W))
  | _, [] => []
  | fw, f :: fs => (serve g tap fw f).1 :: replyFrames (serve g tap fw f).2 fs

variable {tap} {fw : Fw g.W} {fs : List (List (BitVec g.W))} {f : List (BitVec g.W)}

theorem answers_eq_flatMap : answers tap fw fs = (replyFrames tap fw fs).flatMap beats := by
  induction fs generalizing fw with
  | nil => rfl
  | cons f fs ih => rw [answers, ih, replyFrames, List.flatMap_cons]

theorem replyFrames_snoc : replyFrames tap fw (fs ++ [f]) =
    replyFrames tap fw fs ++ [(serve g tap (afterAll tap fw fs) f).1] := by
  induction fs generalizing fw with
  | nil => rfl
  | cons f' fs ih =>
    rw [List.cons_append, replyFrames, ih, replyFrames, List.cons_append]
    rfl

theorem answers_snoc : answers tap fw (fs ++ [f]) =
    answers tap fw fs ++ beats (serve g tap (afterAll tap fw fs) f).1 := by
  rw [answers_append, answers_singleton]

theorem replyFrames_ne_nil (hne : ∀ f ∈ fs, f ≠ []) : ∀ R ∈ replyFrames tap fw fs, R ≠ [] := by
  induction fs generalizing fw with
  | nil => simp [replyFrames]
  | cons f fs ih =>
    intro R hR
    rw [replyFrames, List.mem_cons] at hR
    rcases hR with rfl | hR
    · exact serve_ne_nil tap fw (hne f (by simp))
    · exact ih (fun f' hf' => hne f' (List.mem_cons_of_mem _ hf')) R hR

theorem serve_small {n : ℕ} (hmem : 2 * fw.mem.length ≤ n) (hf : f.length ≤ n + 1) :
    2 * (serve g tap fw f).1.length ≤ n + 2 ∧ 2 * (serve g tap fw f).2.mem.length ≤ n := by
  cases f with
  | nil => exact ⟨Nat.zero_le _, hmem⟩
  | cons data payload =>
    have hcount : 2 * (taskOf fw data payload).count ≤ payload.length :=
      AxisToJtagCore.Task.two_count_le
    rw [← shiftTdo_length tap] at hcount
    rw [List.length_cons] at hf
    rw [serve]
    split
    case h_6 =>
      split_ifs
      · exact ⟨by simp, hmem⟩
      · exact ⟨by rw [List.length_cons]; omega, by dsimp only; omega⟩
    case h_5 => exact ⟨by rw [List.length_cons]; omega, hmem⟩
    all_goals exact ⟨by simp, hmem⟩

theorem replyFrames_small {n : ℕ} (hmem : 2 * fw.mem.length ≤ n) (hf : ∀ f ∈ fs, f.length ≤ n + 1) :
    ∀ R ∈ replyFrames tap fw fs, 2 * R.length ≤ n + 2 := by
  induction fs generalizing fw with
  | nil => simp [replyFrames]
  | cons f fs ih =>
    have hserve : 2 * (serve g tap fw f).1.length ≤ n + 2 ∧
        2 * (serve g tap fw f).2.mem.length ≤ n := serve_small hmem (hf f (by simp))
    intro R hR
    rw [replyFrames, List.mem_cons] at hR
    rcases hR with rfl | hR
    · exact hserve.1
    · exact ih hserve.2 (fun f' hf' => hf f' (List.mem_cons_of_mem _ hf')) R hR

instance (fw : Fw g.W) : (f : List (BitVec g.W)) → Decidable (TidyAt fw f)
  | [] => inferInstanceAs (Decidable False)
  | _ :: _ => inferInstanceAs (Decidable (_ → _))

instance decidableAllTidy (tap : Tap) (fw : Fw g.W) :
    (fs : List (List (BitVec g.W))) → Decidable (AllTidy tap fw fs)
  | [] => inferInstanceAs (Decidable True)
  | f :: fs =>
    have := decidableAllTidy tap (serve g tap fw f).2 fs
    inferInstanceAs (Decidable (TidyAt fw f ∧ AllTidy tap (serve g tap fw f).2 fs))

end XvcSupport.AxisToJtag

namespace XvcSupport.Tmem2BSCANWrapper

open AxisToJtag Axis2TmemFifo

variable {cs : BitVec 2} {tap : Tap} {s : Traffic} {d : Dev jtag} {b : Tmem} {a : Lines}

/-- What the bus does in a cycle: it resets nothing and does not take over the pins, the end of a
frame follows one to 512 words, and a read of a word a cycle without one. -/
structure Legal (cs : BitVec 2) (tap : Tap) (s : Traffic) (b : Tmem) (a : Lines) : Prop where
  noReset : NoReset (streamGenerics cs) (s.board.fifoIn tap false b a)
  noBitBang : (fifoRegSel (streamGenerics cs) b).getLsbD 3 = true → b.we.getLsbD 3 = true →
    b.datw.getLsbD 31 = false
  ends : Outgoing.EndsFrame (streamGenerics cs) (s.outgoing []) (s.board.fifoIn tap false b a)
  apart : s.board.fifo.tmemRDEN (streamGenerics cs) (s.board.fifoIn tap false b a) = true →
    s.board.fifo.fifoInpRDENs = false

instance : Decidable (Legal cs tap s b a) :=
  decidable_of_iff (NoReset (streamGenerics cs) (s.board.fifoIn tap false b a) ∧
      ((fifoRegSel (streamGenerics cs) b).getLsbD 3 = true → b.we.getLsbD 3 = true →
        b.datw.getLsbD 31 = false) ∧
      (s.board.fifo.fifoOutOwnerAXIS = false →
        endWrite (streamGenerics cs) (s.board.fifoIn tap false b a) = true →
        s.cur ≠ [] ∧ s.cur.length ≤ FifoSync.size) ∧
      (s.board.fifo.tmemRDEN (streamGenerics cs) (s.board.fifoIn tap false b a) = true →
        s.board.fifo.fifoInpRDENs = false))
    ⟨fun h => ⟨h.1, h.2.1, h.2.2.1, h.2.2.2⟩,
      fun h => ⟨h.noReset, h.noBitBang, h.ends, h.apart⟩⟩

/-- The entity `d`, fed with the frames that the bus has written, is the one on the board. -/
structure Joint (tap : Tap) (s : Traffic) (d : Dev jtag) : Prop where
  pins : s.board.bb_ena = false
  fits : ∀ f ∈ s.sent, f.length ≤ FifoSync.size
  stage : ∃ n, DevAt CLK_DIV2_G tap (Fw.init jtag.W) s.sent n d
  entity : d.entity = s.board.jtag
  hist : d.hist = s.board.hist
  outgoing : ∃ out, Outgoing.At (s.outgoing out)
  src : d.src = beats s.pending
  offer : d.offer = true → s.board.fifo.fifoOutValid = true
  incoming : Incoming.At (replyFrames tap (Fw.init jtag.W) s.sent)
    (s.incoming ((answers tap (Fw.init jtag.W) s.sent).drop d.out.length))

def StreamBoard.event (s : StreamBoard) : Bool × Bool := (s.fifo.fifoOutValid, s.fifo.tReadyInp)

namespace Joint

theorem running (h : Joint tap s d) : Running s.board.fifo := h.incoming.running

theorem reply_fits (h : Joint tap s d) :
    ∀ R ∈ replyFrames tap (Fw.init jtag.W) s.sent, R.length ≤ FifoSync.size := by
  intro R hR
  have hsmall := replyFrames_small (g := jtag) (n := 511) (Nat.zero_le _) h.fits R hR
  exact (by omega : R.length ≤ 512)

theorem owner_of_valid (h : Joint tap s d) (hvalid : s.board.fifo.fifoOutValid = true) :
    s.board.fifo.fifoOutOwnerAXIS = true := by
  obtain ⟨out, hout⟩ := h.outgoing
  cases hout with
  | writing hw =>
    have hno : s.board.fifo.fifoOutValid = false := hw.valid
    rw [hno] at hvalid
    cases hvalid
  | sending hs => exact hs.owner

theorem pending_eq (h : Joint tap s d) (hvalid : s.board.fifo.fifoOutValid = true) :
    s.pending = s.board.fifo.fifoOut.dO :: s.board.fifo.fifoOut.queue :=
  Outgoing.pending_eq (h.owner_of_valid hvalid) hvalid rfl

theorem same (h : Joint tap s d) :
    Axis.Same s.board.fifo.axisOutPri (d.mAxisReq s.board.event.1) := by
  cases hvalid : s.board.fifo.fifoOutValid with
  | true =>
    have hsrc := h.src
    rw [h.pending_eq hvalid] at hsrc
    have hreq : d.mAxisReq s.board.event.1 = s.board.fifo.axisOutPri := by
      simp only [Dev.mAxisReq, hsrc, beats_cons, StreamBoard.event, hvalid, Bool.or_true,
        Axis2TmemFifo.Reg.axisOutPri, FifoSync.empty]
      congr 1
      cases s.board.fifo.fifoOut.queue <;> rfl
    rw [hreq]
    exact ⟨rfl, fun _ => rfl⟩
  | false =>
    have hoffer : d.offer = false := by
      by_contra hcon
      have := h.offer (by simpa using hcon)
      rw [hvalid] at this
      cases this
    have hno : (d.mAxisReq s.board.event.1).tValid = false := by
      rw [StreamBoard.event, hvalid, Dev.mAxisReq]
      cases d.src with
      | nil => rfl
      | cons w ws => simp [hoffer]
    refine ⟨?_, ?_⟩
    · rw [hno]
      exact hvalid
    · intro hv
      have hv' : s.board.fifo.fifoOutValid = true := hv
      rw [hvalid] at hv'
      cases hv'

theorem tms_eq (h : Joint tap s d) : s.board.tms = s.board.jtag.ser.pins.1 := by
  simp [StreamBoard.tms, h.pins, muxSlv]

theorem tdi_eq (h : Joint tap s d) : s.board.tdi = s.board.jtag.ser.pins.2 := by
  simp [StreamBoard.tdi, h.pins, muxSlv]

theorem tck_eq {s : StreamBoard} (h : s.bb_ena = false) : s.tck = s.jtag.ser.tck := by
  simp [StreamBoard.tck, h, muxSlv]

theorem entity_cycle (h : Joint tap s d) :
    (d.cycle CLK_DIV2_G tap s.board.event).entity = (s.cycle cs tap b a).board.jtag := by
  rw [Dev.entity_cycle h.same, h.entity]
  have hpins : d.ser.pins = (s.board.tms, s.board.tdi) := by
    have hser : d.ser = s.board.jtag.ser := congrArg Entity.ser h.entity
    rw [hser, h.tms_eq, h.tdi_eq]
  rw [hpins, h.hist]
  rfl

theorem sAxisReq_eq (h : Joint tap s d) : d.sAxisReqLoc = s.board.jtag.sAxisReq := by
  rw [← h.entity]
  rfl

theorem reqXfer_eq (h : Joint tap s d) : d.reqXfer s.board.event.1 =
    (s.board.fifo.axisOutPri.tValid && s.board.jtag.sAxisReq) := by
  rw [Dev.reqXfer, ← h.same.1, h.sAxisReq_eq]

theorem auxOut_ena (s : StreamBoard) : (s.auxOut tap a).getLsbD 95 = s.bb_ena := by
  simp only [StreamBoard.auxOut, BitVec.getLsbD_append, Nat.reduceLT, Nat.reduceSub, ↓reduceIte]
  rw [BitVec.getLsbD_ofBool]
  simp

theorem bb_ena_cycle (h : Joint tap s d) (hl : Legal cs tap s b a) :
    (s.cycle cs tap b a).board.bb_ena = false := by
  have hnext := h.running.next_eq hl.noReset
  have haux : (s.cycle cs tap b a).board.bb_ena =
      (auxNext (streamGenerics cs) (s.board.fifoIn tap false b a)).getLsbD 95 := by
    rw [StreamBoard.bb_ena, StreamBoard.auxIn]
    exact congrArg (fun r => r.auxReg.getLsbD 95) hnext
  have hout : (s.board.fifoIn tap false b a).auxIn.getLsbD 95 = false := by
    rw [← h.pins]
    exact auxOut_ena s.board
  rw [haux, getLsbD_auxNext_high (by decide) (by decide)]
  split_ifs with hwrite hro
  · exact hout
  · exact hl.noBitBang hwrite.1 hwrite.2
  · exact hout

theorem hist_cycle (h : Joint tap s d) (hl : Legal cs tap s b a) :
    (d.cycle CLK_DIV2_G tap s.board.event).hist = (s.cycle cs tap b a).board.hist := by
  have hser : (d.cycle CLK_DIV2_G tap s.board.event).ser = (s.cycle cs tap b a).board.jtag.ser :=
    congrArg Entity.ser h.entity_cycle
  have htck : (s.cycle cs tap b a).board.tck = (s.cycle cs tap b a).board.jtag.ser.tck :=
    tck_eq (h.bb_ena_cycle hl)
  have hold : d.ser = s.board.jtag.ser := congrArg Entity.ser h.entity
  have hclock : (s.cycle cs tap b a).board.hist =
      if (s.cycle cs tap b a).board.tck = s.board.tck then s.board.hist
      else s.board.hist ++ [⟨(s.cycle cs tap b a).board.tck, s.board.tms, s.board.tdi⟩] := rfl
  rw [hclock, htck, tck_eq h.pins, h.tms_eq, h.tdi_eq, ← hser, ← hold, ← h.hist]
  rfl

/-- The entity after a cycle in which the end of a frame may be written. -/
def feed (cs : BitVec 2) (tap : Tap) (s : Traffic) (b : Tmem) (a : Lines) (d : Dev jtag) :
    Dev jtag :=
  if !s.board.fifo.fifoOutOwnerAXIS && endWrite (streamGenerics cs) (s.board.fifoIn tap false b a)
  then (d.cycle CLK_DIV2_G tap s.board.event).behind s.cur
  else d.cycle CLK_DIV2_G tap s.board.event

theorem outgoing_cycle (hl : Legal cs tap s b a) {out : List (BitVec 32 × Bool)}
    (hout : Outgoing.At (s.outgoing out)) :
    Outgoing.At ((s.cycle cs tap b a).outgoing
      (if s.board.fifo.axisOutPri.tValid && s.board.jtag.sAxisReq then
        out ++ [(s.board.fifo.axisOutPri.tData, s.board.fifo.axisOutPri.tLast)] else out)) :=
  hout.cycle hl.noReset hl.ends

theorem src_cycle (h : Joint tap s d) (hl : Legal cs tap s b a) :
    (feed cs tap s b a d).src = beats (s.cycle cs tap b a).pending := by
  obtain ⟨out, hout⟩ := h.outgoing
  have hold := (hout.streams (g := streamGenerics cs)).frames
  have hnew := ((outgoing_cycle hl hout).streams (g := streamGenerics cs)).frames
  have hleft : (d.cycle CLK_DIV2_G tap s.board.event).src =
      if s.board.fifo.axisOutPri.tValid && s.board.jtag.sAxisReq then (beats s.pending).tail
      else beats s.pending := by
    rw [← h.reqXfer_eq, ← h.src]
    rfl
  set more : List (BitVec 32 × Bool) :=
    if !s.board.fifo.fifoOutOwnerAXIS && endWrite (streamGenerics cs) (s.board.fifoIn tap false b a)
    then beats s.cur else [] with hmore
  have hsrc : (feed cs tap s b a d).src =
      (d.cycle CLK_DIV2_G tap s.board.event).src ++ more := by
    rw [feed, hmore]
    split_ifs
    · rfl
    · rw [List.append_nil]
  have hsent : (s.cycle cs tap b a).sent.flatMap beats = s.sent.flatMap beats ++ more := by
    simp only [Traffic.cycle, hmore]
    split_ifs
    · simp
    · rw [List.append_nil]
  have hsame : s.sent.flatMap beats = out ++ beats s.pending := hold
  have hnext : (s.cycle cs tap b a).sent.flatMap beats = _ ++ beats (s.cycle cs tap b a).pending :=
    hnew
  rw [hsent, hsame, List.append_assoc] at hnext
  rw [hsrc, hleft]
  split_ifs at hnext ⊢ with hx
  · -- the word at the front is taken
    have hvalid : s.board.fifo.fifoOutValid = true := (Bool.and_eq_true _ _ ▸ hx).1
    have htaken : out ++ (beats s.pending ++ more) =
        (out ++ [(s.board.fifo.axisOutPri.tData, s.board.fifo.axisOutPri.tLast)]) ++
          beats (s.cycle cs tap b a).pending := hnext
    rw [h.pending_eq hvalid, beats_cons, List.append_assoc out] at htaken
    have hcons := List.append_cancel_left htaken
    rw [h.pending_eq hvalid, beats_cons]
    exact (List.cons.inj hcons).2
  · exact List.append_cancel_left hnext

theorem offer_cycle (h : Joint tap s d) (hl : Legal cs tap s b a)
    (hoffer : (feed cs tap s b a d).offer = true) :
    (s.cycle cs tap b a).board.fifo.fifoOutValid = true := by
  obtain ⟨out, hout⟩ := h.outgoing
  have hkept : (feed cs tap s b a d).offer =
      ((d.mAxisReq s.board.event.1).tValid && !d.reqXfer s.board.event.1) := by
    rw [feed]
    split_ifs <;> rfl
  rw [hkept, h.reqXfer_eq, ← h.same.1, Bool.and_eq_true, Bool.not_eq_true'] at hoffer
  obtain ⟨hvalid, hwait⟩ := hoffer
  rw [hvalid, Bool.true_and] at hwait
  have hstable : (s.board.fifo.next (streamGenerics cs) (s.board.fifoIn tap false b a)).axisOutPri =
      s.board.fifo.axisOutPri := hout.streams.stable _ hl.noReset hvalid hwait
  exact (congrArg Axis.tValid hstable).trans hvalid

theorem fits_cycle (h : Joint tap s d) (hl : Legal cs tap s b a) :
    ∀ f ∈ (s.cycle cs tap b a).sent, f.length ≤ FifoSync.size := by
  simp only [Traffic.cycle]
  split_ifs with hend
  · rw [Bool.and_eq_true, Bool.not_eq_true'] at hend
    intro f hf
    rcases List.mem_append.mp hf with hf | hf
    · exact h.fits f hf
    · obtain rfl := List.mem_singleton.mp hf
      exact (hl.ends hend.1 hend.2).2
  · exact h.fits

theorem stage_cycle (h : Joint tap s d) (hl : Legal cs tap s b a)
    (htidy : AllTidy tap (Fw.init jtag.W) s.sent) :
    ∃ n, DevAt CLK_DIV2_G tap (Fw.init jtag.W) (s.cycle cs tap b a).sent n
      (feed cs tap s b a d) := by
  obtain ⟨n, hat⟩ := h.stage
  have hfit : ∀ f ∈ s.sent, AxisToJtag.Fits jtag f :=
    fun f hf => fits_of_width (a := 5) rfl (htidy.ne_nil hf)
  have hsound : d.Sound s.board.event := hat.sound htidy
  obtain ⟨n', hat', -⟩ := hat.advances (by decide) hsound (hat.inRange hfit hsound)
  simp only [feed, Traffic.cycle]
  split_ifs with hend
  · rw [Bool.and_eq_true, Bool.not_eq_true'] at hend
    exact hat'.behind (hl.ends hend.1 hend.2).1
  · exact ⟨n', hat'⟩

theorem front (h : Joint tap s d) (htidy : AllTidy tap (Fw.init jtag.W) s.sent)
    (hvalid : s.board.jtag.streamBuf.tValid = true) :
    ∃ rest, (answers tap (Fw.init jtag.W) s.sent).drop d.out.length =
      (s.board.jtag.streamBuf.tData, s.board.jtag.streamBuf.tLast) :: rest := by
  obtain ⟨n, hat⟩ := h.stage
  have hbuf : d.streamBuf = s.board.jtag.streamBuf := congrArg Entity.streamBuf h.entity
  obtain ⟨rest, hrest⟩ := hat.sent_le htidy
  refine ⟨rest, ?_⟩
  rw [← hrest, Dev.sent, offered, hbuf, if_pos hvalid, List.append_assoc, List.drop_left]
  rfl

theorem out_le (h : Joint tap s d) (htidy : AllTidy tap (Fw.init jtag.W) s.sent) :
    d.out.length ≤ (answers tap (Fw.init jtag.W) s.sent).length := by
  obtain ⟨n, hat⟩ := h.stage
  have hle := (hat.sent_le htidy).length_le
  rw [Dev.sent, List.length_append] at hle
  omega

theorem stream_same (h : Joint tap s d) (htidy : AllTidy tap (Fw.init jtag.W) s.sent) :
    Axis.Same ((s.incoming ((answers tap (Fw.init jtag.W) s.sent).drop d.out.length)).inp
      (s.board.fifoIn tap false b a)).axisInpPri s.board.jtag.streamBuf := by
  cases hvalid : s.board.jtag.streamBuf.tValid with
  | true =>
    obtain ⟨rest, hfront⟩ := h.front htidy hvalid
    have hword : ((s.incoming ((answers tap (Fw.init jtag.W) s.sent).drop d.out.length)).inp
        (s.board.fifoIn tap false b a)).axisInpPri = s.board.jtag.streamBuf := by
      simp only [Incoming.inp, Traffic.incoming, hfront]
      rfl
    rw [hword]
    exact ⟨rfl, fun _ => rfl⟩
  | false =>
    have hno : ((s.incoming ((answers tap (Fw.init jtag.W) s.sent).drop d.out.length)).inp
        (s.board.fifoIn tap false b a)).axisInpPri.tValid = false := by
      simp only [Incoming.inp]
      split
      · rfl
      · exact hvalid
    exact ⟨hno.trans hvalid.symm, fun hv => by rw [hno] at hv; cases hv⟩

theorem out_cycle (h : Joint tap s d) :
    (d.cycle CLK_DIV2_G tap s.board.event).out.length =
      d.out.length + (s.board.jtag.streamBuf.tValid && s.board.fifo.tReadyInp).toNat := by
  have hbuf : d.streamBuf = s.board.jtag.streamBuf := congrArg Entity.streamBuf h.entity
  have hcycle : (d.cycle CLK_DIV2_G tap s.board.event).out =
      if d.streamBuf.tValid && s.board.fifo.tReadyInp then
        d.out ++ [(d.streamBuf.tData, d.streamBuf.tLast)] else d.out := rfl
  rw [hcycle, hbuf]
  cases s.board.jtag.streamBuf.tValid && s.board.fifo.tReadyInp <;> simp

theorem incoming_step (h : Joint tap s d) (htidy : AllTidy tap (Fw.init jtag.W) s.sent) :
    (s.incoming ((answers tap (Fw.init jtag.W) s.sent).drop d.out.length)).cycle
        (streamGenerics cs) (s.board.fifoIn tap false b a) =
      (s.cycle cs tap b a).incoming ((answers tap (Fw.init jtag.W) s.sent).drop
        (d.cycle CLK_DIV2_G tap s.board.event).out.length) := by
  set src := (answers tap (Fw.init jtag.W) s.sent).drop d.out.length with hsrc
  have hsame : Axis.Same ((s.incoming src).inp (s.board.fifoIn tap false b a)).axisInpPri
      s.board.jtag.streamBuf := h.stream_same htidy
  have hnext : s.board.fifo.next (streamGenerics cs)
      ((s.incoming src).inp (s.board.fifoIn tap false b a)) =
        s.board.fifo.next (streamGenerics cs) (s.board.fifoIn tap false b a) :=
    Axis2TmemFifo.Reg.next_same rfl rfl rfl rfl hsame
  have hwren : s.board.fifo.fifoInpWREN ((s.incoming src).inp (s.board.fifoIn tap false b a)) =
      (s.board.jtag.streamBuf.tValid && s.board.fifo.tReadyInp) := by
    rw [Axis2TmemFifo.Reg.fifoInpWREN, hsame.1, h.running.rstInProg, Bool.not_false, Bool.and_true]
  rw [Incoming.cycle, h.out_cycle]
  change Incoming.mk _ (if s.board.fifo.fifoInpWREN
    ((s.incoming src).inp (s.board.fifoIn tap false b a)) then _ else _) _ = _
  rw [hwren, Traffic.incoming, Incoming.mk.injEq]
  refine ⟨hnext, ?_, ?_⟩
  · cases s.board.jtag.streamBuf.tValid && s.board.fifo.tReadyInp with
    | true =>
      rw [if_pos rfl, hsrc, List.tail_drop]
      rfl
    | false =>
      rw [if_neg Bool.false_ne_true]
      rfl
  · exact congrArg (fun r => if s.board.fifo.tmemRDEN (streamGenerics cs)
        (s.board.fifoIn tap false b a) then
      s.reads ++ [(Reg.tmemDATR (streamGenerics cs) r).setWidth 32] else s.reads) hnext

theorem out_le_cycle (h : Joint tap s d) (htidy : AllTidy tap (Fw.init jtag.W) s.sent) :
    (d.cycle CLK_DIV2_G tap s.board.event).out.length ≤
      (answers tap (Fw.init jtag.W) s.sent).length := by
  rw [h.out_cycle]
  cases hx : s.board.jtag.streamBuf.tValid && s.board.fifo.tReadyInp with
  | false => exact h.out_le htidy
  | true =>
    rw [Bool.and_eq_true] at hx
    obtain ⟨rest, hfront⟩ := h.front htidy hx.1
    have hlen := congrArg List.length hfront
    rw [List.length_drop, List.length_cons] at hlen
    rw [Bool.toNat_true]
    omega

theorem tidy_of_cycle (htidy : AllTidy tap (Fw.init jtag.W) (s.cycle cs tap b a).sent) :
    AllTidy tap (Fw.init jtag.W) s.sent := by
  simp only [Traffic.cycle] at htidy
  split_ifs at htidy
  · exact (allTidy_append.mp htidy).1
  · exact htidy

theorem incoming_cycle (h : Joint tap s d) (hl : Legal cs tap s b a)
    (htidy : AllTidy tap (Fw.init jtag.W) s.sent) :
    Incoming.At (replyFrames tap (Fw.init jtag.W) (s.cycle cs tap b a).sent)
      ((s.cycle cs tap b a).incoming ((answers tap (Fw.init jtag.W)
        (s.cycle cs tap b a).sent).drop (feed cs tap s b a d).out.length)) := by
  have hat := h.incoming.cycle (fun R hR =>
    ⟨replyFrames_ne_nil (fun f hf => htidy.ne_nil hf) R hR, h.reply_fits R hR⟩) hl.noReset hl.apart
  rw [h.incoming_step htidy] at hat
  have hsent : (s.cycle cs tap b a).sent = if !s.board.fifo.fifoOutOwnerAXIS &&
      endWrite (streamGenerics cs) (s.board.fifoIn tap false b a) then s.sent ++ [s.cur]
      else s.sent := rfl
  rw [hsent, feed]
  split_ifs with hend
  · rw [Bool.and_eq_true, Bool.not_eq_true'] at hend
    rw [replyFrames_snoc, answers_snoc, Dev.behind_out,
      List.drop_append_of_le_length (h.out_le_cycle htidy)]
    exact hat.behind (serve_ne_nil tap _ (hl.ends hend.1 hend.2).1)
  · exact hat

/-- Whatever the bus does within the rules, the parts stay together. -/
theorem cycle (h : Joint tap s d) (hl : Legal cs tap s b a)
    (htidy : AllTidy tap (Fw.init jtag.W) (s.cycle cs tap b a).sent) :
    Joint tap (s.cycle cs tap b a) (feed cs tap s b a d) := by
  have htidy' := tidy_of_cycle htidy
  obtain ⟨out, hout⟩ := h.outgoing
  refine ⟨h.bb_ena_cycle hl, h.fits_cycle hl, h.stage_cycle hl htidy', ?_, ?_,
    ⟨_, outgoing_cycle hl hout⟩, h.src_cycle hl, h.offer_cycle hl, h.incoming_cycle hl htidy'⟩
  · rw [← h.entity_cycle, feed]
    split_ifs <;> rfl
  · rw [← h.hist_cycle hl, feed]
    split_ifs <;> rfl

end Joint

/-- The board as a reset leaves it. -/
def StreamBoard.init (cs : BitVec 2) (bufMem : ℕ → BitVec 32) (memOut : BitVec 32) :
    StreamBoard where
  fifo := .init (streamGenerics cs)
  jtag := (Dev.init Tmem2BSCANWrapper.jtag bufMem memOut []).entity
  hist := []

namespace Traffic

def init (cs : BitVec 2) (bufMem : ℕ → BitVec 32) (memOut : BitVec 32) : Traffic where
  board := .init cs bufMem memOut
  cur := []
  sent := []
  reads := []

/-- Some cycles of the bus, one after the other. -/
def run (cs : BitVec 2) (tap : Tap) (s : Traffic) (evs : List (Tmem × Lines)) : Traffic :=
  runFrom (fun s ev => s.cycle cs tap ev.1 ev.2) s evs

/-- The bus keeps to the rules in every cycle, and what it writes are frames that do not break off
within a pair. -/
def LegalRun (cs : BitVec 2) (tap : Tap) (s : Traffic) (evs : List (Tmem × Lines)) : Prop :=
  EveryStep (fun s ev => s.cycle cs tap ev.1 ev.2)
    (fun s ev => Legal cs tap s ev.1 ev.2 ∧
      AllTidy tap (Fw.init jtag.W) (s.cycle cs tap ev.1 ev.2).sent) s evs

end Traffic

theorem Joint.init (cs : BitVec 2) (tap : Tap) (bufMem : ℕ → BitVec 32) (memOut : BitVec 32) :
    Joint tap (.init cs bufMem memOut) (Dev.init jtag bufMem memOut []) where
  pins := BitVec.getLsbD_zero
  fits := by simp [Traffic.init]
  stage := DevAt.init fun _ hf => absurd hf List.not_mem_nil
  entity := rfl
  hist := rfl
  outgoing := ⟨[], .writing ⟨Running.init, rfl, rfl, rfl, rfl⟩⟩
  src := rfl
  offer := fun h => by cases h
  incoming := .filling [] [] [] ⟨Running.init, rfl, rfl, rfl, rfl, fun _ => rfl, rfl, rfl⟩

/-- What the bus can rely on at any time. -/
structure Answered (tap : Tap) (s : Traffic) : Prop where
  reads : s.reads <+: (replyFrames tap (Fw.init jtag.W) s.sent).flatten
  hist : s.board.hist <+: (afterAll tap (Fw.init jtag.W) s.sent).hist
  all : s.reads = (replyFrames tap (Fw.init jtag.W) s.sent).flatten →
    s.board.hist = (afterAll tap (Fw.init jtag.W) s.sent).hist
  count : s.board.fifo.wcntReg ≠ 0 →
    ∃ k, s.reads ++ s.board.fifo.fifoInp.queue =
        ((replyFrames tap (Fw.init jtag.W) s.sent).take k).flatten ∧
      s.board.fifo.fifoInp.queue.length = s.board.fifo.wcntReg.toNat

theorem Joint.sent_of_all_read (h : Joint tap s d) (htidy : AllTidy tap (Fw.init jtag.W) s.sent)
    (hall : s.reads = (replyFrames tap (Fw.init jtag.W) s.sent).flatten) :
    d.sent = answers tap (Fw.init jtag.W) s.sent := by
  obtain ⟨n, hat⟩ := h.stage
  -- no word is left to come
  have hnil := h.incoming.reads_unread
  rw [← hall] at hnil
  have hunread := List.append_cancel_left (hnil.trans (List.append_nil _).symm)
  have hsrc := (List.append_eq_nil_iff.mp hunread).2
  have hlen : (answers tap (Fw.init jtag.W) s.sent).length ≤ d.out.length :=
    List.drop_eq_nil_iff.mp (List.map_eq_nil_iff.mp hsrc)
  obtain ⟨rest, hrest⟩ := hat.sent_le htidy
  have hsum := congrArg List.length hrest
  rw [Dev.sent, List.length_append, List.length_append] at hsum
  have hempty : rest = [] := List.eq_nil_of_length_eq_zero (by omega)
  rw [← hrest, hempty, List.append_nil]

theorem Joint.answered (h : Joint tap s d) (htidy : AllTidy tap (Fw.init jtag.W) s.sent) :
    Answered tap s := by
  obtain ⟨n, hat⟩ := h.stage
  refine ⟨⟨_, h.incoming.reads_unread⟩, ?_, ?_, ?_⟩
  · have hsound : d.Sound (false, false) := hat.sound htidy
    rw [← h.hist]
    exact (hat.beginning hsound).2
  · intro hall
    rw [← h.hist]
    exact hat.all_sent htidy (h.sent_of_all_read htidy hall)
  · intro hne
    cases h.incoming with
    | filling done rest left h => exact absurd h.wcntReg hne
    | draining done more f got h =>
      refine ⟨done.length + 1, ?_, ?_⟩
      · have htake : (done ++ f :: more).take (done.length + 1) = done ++ [f] := by
          simp [List.take_append]
        have hreads : s.reads = done.flatten ++ got := h.reads
        have hframe : f = got ++ s.board.fifo.fifoInp.queue := h.frame
        rw [h.split, htake, hreads, List.flatten_append, List.flatten_singleton, hframe,
          List.append_assoc]
      · exact h.wcntCnt.symm.trans (congrArg BitVec.toNat h.wcntReg.symm)

/-- The invariant of every run: the parts stay together, and the frames do not break off. -/
def Served (tap : Tap) (s : Traffic) : Prop :=
  AllTidy tap (Fw.init jtag.W) s.sent ∧ ∃ d, Joint tap s d

theorem Served.run (h : Served tap s) {evs : List (Tmem × Lines)}
    (hlegal : s.LegalRun cs tap evs) : Served tap (s.run cs tap evs) := by
  refine runFrom_invariant ?_ h hlegal
  rintro s ev ⟨-, d, hjoint⟩ ⟨hl, htidy⟩
  exact ⟨htidy, _, hjoint.cycle hl htidy⟩

/-- A power-up with a reset.  The reset input is high for at least six cycles, so that the FIFOs are
cleared before the entity runs, and then low until their reset is over; the bus keeps still.  What
has no initial value is left open. -/
structure PowerUp where
  bufMem : ℕ → BitVec 32
  memOut : BitVec 32
  fifoOutValid : Bool
  fifoRegSelDly : BitVec 4
  statusReg : BitVec 24
  high : List (Tmem × Lines)
  low : List (Tmem × Lines)
  six_le : 6 ≤ high.length
  low_lt : low.length < 8
  ends : (high.length + low.length) % 8 = 0
  still : ∀ ev ∈ high ++ low, ev.1.ena = false

namespace PowerUp

def start (cs : BitVec 2) (p : PowerUp) : StreamBoard :=
  { StreamBoard.init cs p.bufMem p.memOut with
    fifo := resetting (streamGenerics cs) 0 p.fifoOutValid p.fifoRegSelDly p.statusReg 0 }

/-- The board when the reset is over, before the bus does anything. -/
def traffic (cs : BitVec 2) (tap : Tap) (p : PowerUp) : Traffic where
  board := runFrom (fun s ev => s.clock cs tap false ev.1 ev.2)
    (runFrom (fun s ev => s.clock cs tap true ev.1 ev.2) (p.start cs) p.high) p.low
  cur := []
  sent := []
  reads := []

end PowerUp

/-- The board `k` cycles after the reset input has gone high. -/
structure Resetting (cs : BitVec 2) (bufMem : ℕ → BitVec 32) (k : ℕ) (s : StreamBoard) :
    Prop where
  fifo : ∃ valid sel status aux,
    s.fifo = resetting (streamGenerics cs) (.ofNat 3 k) valid sel status aux ∧
      (6 ≤ k → valid = false) ∧
      (0 < k → k % 8 = 0 → valid = false ∧ sel = 0 ∧ status = 0 ∧ aux = 0)
  pins : s.bb_ena = false
  jtag : ∃ memOut, s.jtag = (Dev.init Tmem2BSCANWrapper.jtag bufMem memOut []).entity
  hist : s.hist = []

/-- Without a word to take the entity stays as it is. -/
theorem entity_clock_idle (bufMem : ℕ → BitVec 32) (memOut : BitVec 32) {m : Axis 32}
    (hm : m.tValid = false) (tReady tdo : Bool) :
    ∃ memOut', (Dev.init jtag bufMem memOut []).entity.clock CLK_DIV2_G m tReady tdo =
      (Dev.init jtag bufMem memOut' []).entity := by
  obtain ⟨valid, last, data⟩ := m
  obtain rfl : valid = false := hm
  cases tReady <;> cases tdo <;> exact ⟨_, rfl⟩

section Clock

variable {bufMem : ℕ → BitVec 32} {k : ℕ} {s : StreamBoard} {rst : Bool}

/-- The sequence goes on with the reset input high, or until it is over. -/
theorem Resetting.usrRstNext (h : Resetting cs bufMem k s)
    (hrst : rst = true ∨ 6 ≤ k ∧ k % 8 ≠ 0) :
    s.fifo.usrRstNext (s.fifoIn tap rst b a) = .ofNat 3 (k + 1) := by
  have hold : s.fifo.usrRstSeq = .ofNat 3 k := by
    obtain ⟨valid, sel, status, aux, hfifo, -⟩ := h.fifo
    rw [hfifo]
    rfl
  rw [Axis2TmemFifo.Reg.usrRstNext, hold, BitVec.ofNat_add]
  split_ifs with hne hgo
  · rfl
  · rw [not_not.mp hne]
    rfl
  -- a sequence that is over starts again only with the input
  · have hzero : k % 8 = 0 := by
      have := congrArg BitVec.toNat (not_not.mp hne)
      simpa using this
    obtain rfl | ⟨-, hk⟩ := hrst
    · exact absurd rfl hgo
    · exact absurd hzero hk

/-- The entity is in reset, or it has no word to take. -/
theorem Resetting.jtag_clock (h : Resetting cs bufMem k s) (hrst : rst = true ∨ 6 ≤ k ∧ k % 8 ≠ 0) :
    ∃ memOut', (s.clock cs tap rst b a).jtag =
      (Dev.init Tmem2BSCANWrapper.jtag bufMem memOut' []).entity := by
  obtain ⟨memOut, hjtag⟩ := h.jtag
  cases rst with
  | true => exact ⟨memOut, congrArg Entity.reset hjtag⟩
  | false =>
    have hk : 6 ≤ k := (hrst.resolve_left Bool.false_ne_true).1
    have hno : s.fifo.axisOutPri.tValid = false := by
      obtain ⟨valid, sel, status, aux, hfifo, hvalid, -⟩ := h.fifo
      rw [hfifo]
      exact hvalid hk
    obtain ⟨memOut', hidle⟩ := entity_clock_idle bufMem memOut hno s.fifo.tReadyInp (s.tdo tap)
    refine ⟨memOut', Eq.trans ?_ hidle⟩
    rw [← hjtag]
    rfl

theorem Resetting.clock (h : Resetting cs bufMem k s) (tap : Tap) (rst : Bool)
    (hb : b.ena = false) (hrst : rst = true ∨ 6 ≤ k ∧ k % 8 ≠ 0) :
    Resetting cs bufMem (k + 1) (s.clock cs tap rst b a) := by
  obtain ⟨valid, sel, status, aux, hfifo, hvalid, -⟩ := h.fifo
  obtain ⟨memOut, hjtag⟩ := h.jtag
  have hstream : (s.fifoIn tap rst b a).axisInpPri.tValid = false := by
    rw [StreamBoard.fifoIn, hjtag]
    rfl
  obtain ⟨hcleared, valid', sel', status', aux', hnext, hvalid', haux'⟩ :=
    resetting_next hfifo hb hstream
  rw [h.usrRstNext hrst] at hcleared hnext
  have hlt : 4 < BitVec.ofNat 3 k ↔ 4 < k % 8 := by
    rw [BitVec.lt_def]
    simp
  have haux : aux'.getLsbD 95 = false := by
    rcases haux' with rfl | rfl
    · exact (Joint.auxOut_ena s).trans h.pins
    · exact BitVec.getLsbD_zero
  have hpins : (s.clock cs tap rst b a).bb_ena = false := by
    rw [StreamBoard.bb_ena, StreamBoard.auxIn]
    exact (congrArg (fun r => r.auxReg.getLsbD 95) hnext).trans haux
  have hjtag' : ∃ memOut', (s.clock cs tap rst b a).jtag =
      (Dev.init Tmem2BSCANWrapper.jtag bufMem memOut' []).entity := h.jtag_clock hrst
  refine ⟨?_, hpins, hjtag', ?_⟩
  · by_cases h4 : 4 < BitVec.ofNat 3 k
    · exact ⟨false, 0, 0, 0, hcleared h4, fun _ => rfl, fun _ _ => ⟨rfl, rfl, rfl, rfl⟩⟩
    · rw [hlt] at h4
      refine ⟨valid', sel', status', aux', hnext, fun h6 => hvalid' (hvalid (by omega)), ?_⟩
      intro _ hk
      omega
  · have htck : (s.clock cs tap rst b a).tck = s.tck := by
      obtain ⟨memOut', hjtag''⟩ := hjtag'
      rw [Joint.tck_eq hpins, Joint.tck_eq h.pins, hjtag, hjtag'']
      rfl
    have hhist : (s.clock cs tap rst b a).hist =
        if (s.clock cs tap rst b a).tck = s.tck then s.hist
        else s.hist ++ [⟨(s.clock cs tap rst b a).tck, s.tms, s.tdi⟩] := rfl
    rw [hhist, if_pos htck, h.hist]

end Clock

theorem Resetting.high {bufMem : ℕ → BitVec 32} {k : ℕ} {s : StreamBoard}
    (h : Resetting cs bufMem k s) (tap : Tap) {evs : List (Tmem × Lines)}
    (hstill : ∀ ev ∈ evs, ev.1.ena = false) :
    Resetting cs bufMem (k + evs.length)
      (runFrom (fun s ev => s.clock cs tap true ev.1 ev.2) s evs) := by
  induction evs generalizing k s with
  | nil => exact h
  | cons ev evs ih =>
    have hnext := h.clock tap true (a := ev.2) (hstill ev (by simp)) (Or.inl rfl)
    rw [List.length_cons, show k + (evs.length + 1) = k + 1 + evs.length by omega]
    exact ih hnext fun ev' hev' => hstill ev' (List.mem_cons_of_mem _ hev')

theorem Resetting.low {bufMem : ℕ → BitVec 32} {k : ℕ} {s : StreamBoard}
    (h : Resetting cs bufMem k s) (tap : Tap) (hk : 6 ≤ k) {evs : List (Tmem × Lines)}
    (hstill : ∀ ev ∈ evs, ev.1.ena = false) (hlt : evs.length < 8)
    (hends : (k + evs.length) % 8 = 0) :
    Resetting cs bufMem (k + evs.length)
      (runFrom (fun s ev => s.clock cs tap false ev.1 ev.2) s evs) := by
  induction evs generalizing k s with
  | nil => exact h
  | cons ev evs ih =>
    rw [List.length_cons] at hlt hends ⊢
    have hnext := h.clock tap false (a := ev.2) (hstill ev (by simp))
      (Or.inr ⟨hk, by omega⟩)
    rw [show k + (evs.length + 1) = k + 1 + evs.length by omega]
    exact ih hnext (by omega) (fun ev' hev' => hstill ev' (List.mem_cons_of_mem _ hev'))
      (by omega) (by omega)

/-- Whatever the registers were, the reset leaves the board as the runs below want it. -/
theorem PowerUp.traffic_eq (cs : BitVec 2) (tap : Tap) (p : PowerUp) :
    ∃ memOut, p.traffic cs tap = .init cs p.bufMem memOut := by
  have hstart : Resetting cs p.bufMem 0 (p.start cs) :=
    ⟨⟨_, _, _, _, rfl, fun h => absurd h (by decide), fun h => absurd h (lt_irrefl 0)⟩,
      BitVec.getLsbD_zero, ⟨_, rfl⟩, rfl⟩
  have hhigh := hstart.high tap fun ev hev => p.still ev (List.mem_append_left _ hev)
  have hsix := p.six_le
  rw [Nat.zero_add] at hhigh
  have hlow := hhigh.low tap hsix
    (fun ev hev => p.still ev (List.mem_append_right _ hev)) p.low_lt p.ends
  obtain ⟨valid, sel, status, aux, hfifo, -, hcleared⟩ := hlow.fifo
  obtain ⟨memOut, hjtag⟩ := hlow.jtag
  obtain ⟨rfl, rfl, rfl, rfl⟩ := hcleared (by omega) p.ends
  have husr : BitVec.ofNat 3 (p.high.length + p.low.length) = 0 := by
    apply BitVec.eq_of_toNat_eq
    simpa using p.ends
  rw [husr] at hfifo
  refine ⟨memOut, ?_⟩
  rw [traffic, Traffic.init, Traffic.mk.injEq]
  refine ⟨?_, rfl, rfl, rfl⟩
  generalize runFrom _ (runFrom _ (p.start cs) p.high) p.low = s at hlow hfifo hjtag ⊢
  obtain ⟨fifo, jtag, hist⟩ := s
  rw [StreamBoard.init, StreamBoard.mk.injEq]
  exact ⟨hfifo, hjtag, hlow.hist⟩

theorem PowerUp.served (cs : BitVec 2) (tap : Tap) (p : PowerUp) :
    Served tap (p.traffic cs tap) := by
  obtain ⟨memOut, htraffic⟩ := p.traffic_eq cs tap
  rw [htraffic]
  exact ⟨trivial, _, .init cs tap p.bufMem memOut⟩

/-- After power-up and a reset, whatever the bus does within the rules, and whenever: the words that
it has read are the first ones of the replies to the frames that it has written, TCK has moved with
a beginning of what these frames ask for, with all of it when all words are read, and the count in
the status register is that of the words left of some reply. -/
theorem stream_board_answers (cs : BitVec 2) (tap : Tap) (p : PowerUp)
    (evs : List (Tmem × Lines)) (hlegal : (p.traffic cs tap).LegalRun cs tap evs) :
    Answered tap ((p.traffic cs tap).run cs tap evs) := by
  obtain ⟨htidy, d, hjoint⟩ := (p.served cs tap).run hlegal
  exact hjoint.answered htidy

/-- A query, some cycles without an access, and a read. -/
def oneQuery : List (Tmem × Lines) :=
  [(⟨0, 0, true, 0x0f, 0⟩, ⟨0, 0⟩), (⟨1, 0x10000, true, 0x04, 0⟩, ⟨0, 0⟩)] ++
    List.replicate 12 (⟨0, 0, false, 0, 0⟩, ⟨0, 0⟩) ++ [(⟨0, 0, true, 0, 0⟩, ⟨0, 0⟩)]

/-- A reset of six cycles, with registers that are not what a reset makes of them. -/
def sixCycles : PowerUp where
  bufMem := fun _ => 0
  memOut := 0
  fifoOutValid := true
  fifoRegSelDly := 1
  statusReg := 5
  high := List.replicate 6 (⟨0, 0, false, 0, 0⟩, ⟨0, 0⟩)
  low := List.replicate 2 (⟨0, 0, false, 0, 0⟩, ⟨0, 0⟩)
  six_le := le_rfl
  low_lt := by decide
  ends := rfl
  still := by decide

theorem stream_board_answers_query :
    Answered (fun _ _ tdi => tdi)
        ((sixCycles.traffic 0 fun _ _ tdi => tdi).run 0 (fun _ _ tdi => tdi) oneQuery) ∧
      ((sixCycles.traffic 0 fun _ _ tdi => tdi).run 0 (fun _ _ tdi => tdi) oneQuery).reads =
        [0x4d02003] := by
  refine ⟨stream_board_answers 0 (fun _ _ tdi => tdi) sixCycles oneQuery ?_, ?_⟩
  · unfold Traffic.LegalRun
    decide +kernel
  · decide +kernel

end XvcSupport.Tmem2BSCANWrapper
