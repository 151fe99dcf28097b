import XvcSupport.Axis2TmemFifo
import XvcSupport.Answers

namespace XvcSupport.Axis2TmemFifo

open AxisToJtag

variable (g : Generics)

def dataWrite (b : Tmem) : Bool := (fifoRegSel g b).getLsbD 0 && b.we.extractLsb' 0 4 == 0xf

def endWrite (i : Inp) : Bool := csWrite g i 2 && i.tmem.datw.getLsbD 16

/-- The entity, the words written since the bus owns the FIFO, the frames whose end was written,
and the words the stream has transferred. -/
structure Outgoing where
  r : Reg
  cur : List (BitVec 32)
  sent : List (List (BitVec 32))
  out : List (BitVec 32 × Bool)

namespace Outgoing

def init : Outgoing where
  r := .init g
  cur := []
  sent := []
  out := []

def cycle (s : Outgoing) (i : Inp) : Outgoing where
  r := s.r.next g i
  cur :=
    if s.r.fifoOutOwnerAXIS then s.cur
    else if endWrite g i then []
    else if dataWrite g i.tmem then s.cur ++ [i.tmem.datw.setWidth 32]
    else s.cur
  sent := if !s.r.fifoOutOwnerAXIS && endWrite g i then s.sent ++ [s.cur] else s.sent
  out :=
    if s.r.axisOutPri.tValid && i.tReady then
      s.out ++ [(s.r.axisOutPri.tData, s.r.axisOutPri.tLast)]
    else s.out

def run (evs : ℕ → Inp) (t : ℕ) : Outgoing := runAt (cycle g) (init g) evs t

/-- The words that the stream has still to transfer. -/
def pending (s : Outgoing) : List (BitVec 32) :=
  if s.r.fifoOutOwnerAXIS then
    if s.r.fifoOutValid then s.r.fifoOut.dO :: s.r.fifoOut.queue else s.r.fifoOut.queue
  else []

/-- Each end of a frame follows one to 512 words. -/
def EndsFrame (s : Outgoing) (i : Inp) : Prop :=
  s.r.fifoOutOwnerAXIS = false → endWrite g i = true →
    s.cur ≠ [] ∧ s.cur.length ≤ FifoSync.size

variable {g}

/-- The bus owns the FIFO; words that it writes beyond the size are lost. -/
structure Writing (s : Outgoing) : Prop where
  running : Running s.r
  owner : s.r.fifoOutOwnerAXIS = false
  valid : s.r.fifoOutValid = false
  queue : s.r.fifoOut.queue = s.cur.take FifoSync.size
  out : s.sent.flatMap beats = s.out

/-- The stream owns the FIFO. -/
structure Sending (s : Outgoing) : Prop where
  running : Running s.r
  owner : s.r.fifoOutOwnerAXIS = true
  cur : s.cur = []
  pending : s.pending ≠ []
  out : s.sent.flatMap beats = s.out ++ beats s.pending

variable {s : Outgoing} {i : Inp}

/-- The registers of the outgoing side after a cycle. -/
structure Stepped (g : Generics) (r r' : Reg) (i : Inp) : Prop where
  running : Running r'
  owner : r'.fifoOutOwnerAXIS = (r.seq g i).fifoOutOwnerAXIS
  valid : r'.fifoOutValid = (r.seq g i).fifoOutValid
  fifoOut : r'.fifoOut = r.fifoOut.clock false (r.fifoOutWREN g i) (i.tmem.datw.setWidth 32)
    (r.fifoOutRDEN i)

theorem stepped {r : Reg} (h : Running r) (hi : NoReset g i) : Stepped g r (r.next g i) i := by
  have heq := h.next_eq hi
  refine ⟨h.next hi, ?_, ?_, ?_⟩ <;> rw [heq]

theorem not_endWrite_of_dataWrite (h : dataWrite g i.tmem = true) : endWrite g i = false := by
  rw [dataWrite, Bool.and_eq_true] at h
  have hsel := fifoRegSel_eq_of_getLsbD (by decide) h.1
  simp [endWrite, csWrite, hsel]

theorem Writing.rden (h : Writing s) (i : Inp) : s.r.fifoOutRDEN i = false := by
  simp [Reg.fifoOutRDEN, h.owner]

theorem Writing.fifoOut (h : Writing s) (hi : NoReset g i) :
    (s.cycle g i).r.fifoOut.queue =
      (if dataWrite g i.tmem then s.cur ++ [i.tmem.datw.setWidth 32] else s.cur).take
        FifoSync.size := by
  have hstep := stepped h.running hi
  have hwren : s.r.fifoOutWREN g i = (dataWrite g i.tmem && !s.r.fifoOut.full) := by
    simp only [Reg.fifoOutWREN, dataWrite, h.owner, h.running.rstInProg, Bool.not_false,
      Bool.and_true]
    cases (fifoRegSel g i.tmem).getLsbD 0 <;> cases (i.tmem.we.extractLsb' 0 4 == 0xf) <;> simp
  have hqueue : (s.cycle g i).r.fifoOut.queue = s.r.fifoOut.queue ++
      (if dataWrite g i.tmem && !s.r.fifoOut.full then [i.tmem.datw.setWidth 32] else []) := by
    rw [cycle, hstep.fifoOut]
    simp [FifoSync.clock, h.rden, hwren]
  have hfull : s.r.fifoOut.full = decide (FifoSync.size ≤ s.cur.length) := by
    rw [FifoSync.full, h.queue, List.length_take, decide_eq_decide]
    omega
  rw [hqueue, hfull, h.queue]
  cases dataWrite g i.tmem with
  | false => simp
  | true =>
    by_cases hle : FifoSync.size ≤ s.cur.length
    · rw [if_pos rfl, List.take_append_of_le_length hle]
      simp [hle]
    · have hlen : (s.cur ++ [i.tmem.datw.setWidth 32]).length ≤ FifoSync.size := by
        rw [List.length_append, List.length_singleton]
        omega
      rw [if_pos rfl, List.take_of_length_le hlen, List.take_of_length_le (by omega)]
      simp [hle]

theorem Writing.wait (h : Writing s) (hi : NoReset g i) (hend : endWrite g i = false) :
    Writing (s.cycle g i) := by
  have hstep := stepped h.running hi
  have hcur : (s.cycle g i).cur =
      if dataWrite g i.tmem then s.cur ++ [i.tmem.datw.setWidth 32] else s.cur := by
    simp [cycle, h.owner, hend]
  refine ⟨hstep.running, ?_, ?_, ?_, ?_⟩
  · rw [cycle, hstep.owner]
    simp only [Reg.seq, h.owner, h.valid]
    rw [endWrite] at hend
    simpa using hend
  · rw [cycle, hstep.valid]
    simp [Reg.seq, h.valid, h.rden]
  · rw [hcur]
    exact h.fifoOut hi
  · have hsent : (s.cycle g i).sent = s.sent := by simp [cycle, hend]
    have hout : (s.cycle g i).out = s.out := by simp [cycle, Reg.axisOutPri, h.valid]
    rw [hsent, hout, h.out]

theorem Writing.endFrame (h : Writing s) (hi : NoReset g i) (hend : endWrite g i = true)
    (hne : s.cur ≠ []) (hlen : s.cur.length ≤ FifoSync.size) : Sending (s.cycle g i) := by
  have hstep := stepped h.running hi
  have hdata : dataWrite g i.tmem = false := by
    by_contra hdata
    rw [not_endWrite_of_dataWrite (by simpa using hdata)] at hend
    cases hend
  have howner : (s.cycle g i).r.fifoOutOwnerAXIS = true := by
    rw [cycle, hstep.owner]
    simp only [Reg.seq, h.owner, h.valid]
    rw [endWrite] at hend
    simpa using hend
  have hvalid : (s.cycle g i).r.fifoOutValid = false := by
    rw [cycle, hstep.valid]
    simp [Reg.seq, h.valid, h.rden]
  have hpending : (s.cycle g i).pending = s.cur := by
    have hqueue := h.fifoOut hi
    rw [hdata, if_neg (by simp), List.take_of_length_le hlen] at hqueue
    rw [pending, howner, hvalid, if_pos rfl, if_neg (by simp), hqueue]
  refine ⟨hstep.running, howner, by simp [cycle, h.owner, hend], by rw [hpending]; exact hne, ?_⟩
  have hsent : (s.cycle g i).sent = s.sent ++ [s.cur] := by simp [cycle, h.owner, hend]
  have hout : (s.cycle g i).out = s.out := by simp [cycle, Reg.axisOutPri, h.valid]
  rw [hpending, hsent, hout, List.flatMap_append, h.out]
  simp

theorem Sending.wren (h : Sending s) (i : Inp) : s.r.fifoOutWREN g i = false := by
  simp [Reg.fifoOutWREN, h.owner]

theorem Sending.rden (h : Sending s) (i : Inp) : s.r.fifoOutRDEN i =
    ((!s.r.fifoOutValid || i.tReady) && !s.r.fifoOut.empty) := by
  simp only [Reg.fifoOutRDEN, h.owner, h.running.rstInProg]
  cases s.r.fifoOutValid <;> cases i.tReady <;> simp

theorem Sending.stall (h : Sending s) (hi : NoReset g i) (hvalid : s.r.fifoOutValid = true)
    (hready : i.tReady = false) :
    (s.r.next g i).fifoOut = s.r.fifoOut ∧ (s.r.next g i).fifoOutValid = true ∧
      (s.r.next g i).fifoOutOwnerAXIS = true := by
  have hstep := stepped h.running hi
  refine ⟨?_, ?_, ?_⟩
  · rw [hstep.fifoOut]
    simp [FifoSync.clock, h.wren, h.rden, hvalid, hready]
  · rw [hstep.valid]
    simp [Reg.seq, hvalid, hready]
  · rw [hstep.owner]
    simp [Reg.seq, h.owner, hready]

theorem Sending.advance (h : Sending s) (hi : NoReset g i)
    (hfree : (!s.r.fifoOutValid || i.tReady) = true) :
    (s.r.next g i).fifoOut =
        ⟨s.r.fifoOut.queue.tail, s.r.fifoOut.queue.headD s.r.fifoOut.dO⟩ ∧
      (s.r.next g i).fifoOutValid = !s.r.fifoOut.empty ∧
      (s.r.next g i).fifoOutOwnerAXIS =
        !(s.r.fifoOutValid && i.tReady && s.r.fifoOut.empty) := by
  have hstep := stepped h.running hi
  have hrden : s.r.fifoOutRDEN i = !s.r.fifoOut.empty := by
    rw [h.rden, hfree, Bool.true_and]
  refine ⟨?_, ?_, ?_⟩
  · rw [hstep.fifoOut]
    cases hq : s.r.fifoOut.queue with
    | nil => simp [FifoSync.clock, h.wren, hrden, FifoSync.empty, hq]
    | cons w q => simp [FifoSync.clock, h.wren, hrden, FifoSync.empty, hq]
  · rw [hstep.valid]
    simp [Reg.seq, hfree, hrden]
  · rw [hstep.owner]
    simp only [Reg.seq, h.owner]
    cases (s.r.fifoOutValid && i.tReady && s.r.fifoOut.empty) <;> simp

theorem Sending.cycle_same (h : Sending s) (i : Inp) :
    (s.cycle g i).cur = [] ∧ (s.cycle g i).sent = s.sent := by
  simp [cycle, h.owner, h.cur]

theorem pending_eq {t : Outgoing} {w : BitVec 32} {q : List (BitVec 32)}
    (howner : t.r.fifoOutOwnerAXIS = true) (hvalid : t.r.fifoOutValid = true)
    (hfifo : t.r.fifoOut = ⟨q, w⟩) : t.pending = w :: q := by
  rw [pending, howner, hvalid, hfifo]
  rfl

theorem Sending.cycle_stall (h : Sending s) (hi : NoReset g i) (hvalid : s.r.fifoOutValid = true)
    (hready : i.tReady = false) : Sending (s.cycle g i) := by
  have hstall := h.stall hi hvalid hready
  have hout : (s.cycle g i).out = s.out := by simp [Outgoing.cycle, hready]
  have hpending : (s.cycle g i).pending = s.pending := by
    rw [pending_eq hstall.2.2 hstall.2.1 hstall.1, pending_eq h.owner hvalid rfl]
  refine ⟨h.running.next hi, hstall.2.2, (h.cycle_same i).1, ?_, ?_⟩
  · rw [hpending]
    exact h.pending
  · rw [hpending, (h.cycle_same i).2, hout]
    exact h.out

theorem Sending.not_empty (h : Sending s) (hvalid : s.r.fifoOutValid = false) :
    s.r.fifoOut.empty = false := by
  have hne := h.pending
  rw [Outgoing.pending, if_pos h.owner, hvalid, if_neg (by simp)] at hne
  rw [FifoSync.empty, decide_eq_false_iff_not]
  exact hne

theorem Sending.cycle_first (h : Sending s) (hi : NoReset g i)
    (hvalid : s.r.fifoOutValid = false) : Sending (s.cycle g i) := by
  have hadvance := h.advance hi (by simp [hvalid])
  have hpending : s.pending = s.r.fifoOut.queue := by
    rw [Outgoing.pending, h.owner, hvalid]
    rfl
  obtain ⟨w, q, hq⟩ := List.exists_cons_of_ne_nil (hpending ▸ h.pending)
  rw [hq, h.not_empty hvalid, hvalid] at hadvance
  have hnext : (s.cycle g i).pending = w :: q := pending_eq hadvance.2.2 hadvance.2.1 hadvance.1
  have hout : (s.cycle g i).out = s.out := by simp [Outgoing.cycle, Reg.axisOutPri, hvalid]
  refine ⟨h.running.next hi, hadvance.2.2, (h.cycle_same i).1, by simp [hnext], ?_⟩
  rw [hnext, (h.cycle_same i).2, hout, ← hq, ← hpending]
  exact h.out

theorem Sending.cycle_transfer (h : Sending s) (hi : NoReset g i)
    (hvalid : s.r.fifoOutValid = true) (hready : i.tReady = true) :
    if s.r.fifoOut.empty then Writing (s.cycle g i) else Sending (s.cycle g i) := by
  have hadvance := h.advance hi (by simp [hready])
  have hout : (s.cycle g i).out = s.out ++ [(s.r.fifoOut.dO, s.r.fifoOut.empty)] := by
    simp [Outgoing.cycle, Reg.axisOutPri, hvalid, hready]
  have hdone := h.out
  rw [pending_eq h.owner hvalid rfl] at hdone
  cases hq : s.r.fifoOut.queue with
  | nil =>
    have hempty : s.r.fifoOut.empty = true := by simp [FifoSync.empty, hq]
    rw [hempty, hvalid, hready, hq] at hadvance
    rw [hempty] at hout ⊢
    refine ⟨h.running.next hi, hadvance.2.2, hadvance.2.1, ?_, ?_⟩
    · rw [(h.cycle_same i).1]
      exact congrArg FifoSync.queue hadvance.1
    · rw [(h.cycle_same i).2, hout, hdone, hq]
      rfl
  | cons w q =>
    have hempty : s.r.fifoOut.empty = false := by simp [FifoSync.empty, hq]
    rw [hempty, hvalid, hready, hq] at hadvance
    rw [hempty] at hout ⊢
    have hnext : (s.cycle g i).pending = w :: q := pending_eq hadvance.2.2 hadvance.2.1 hadvance.1
    refine ⟨h.running.next hi, hadvance.2.2, (h.cycle_same i).1, by simp [hnext], ?_⟩
    rw [hnext, (h.cycle_same i).2, hout, hdone, hq, beats_cons, List.append_assoc]
    rfl

/-- Either side owns the FIFO. -/
inductive At (s : Outgoing) : Prop
  | writing : Writing s → At s
  | sending : Sending s → At s

theorem At.cycle (h : At s) (hi : NoReset g i) (hend : EndsFrame g s i) : At (s.cycle g i) := by
  cases h with
  | writing h =>
    cases hwrite : endWrite g i with
    | false => exact .writing (h.wait hi hwrite)
    | true => exact .sending (h.endFrame hi hwrite (hend h.owner hwrite).1 (hend h.owner hwrite).2)
  | sending h =>
    cases hvalid : s.r.fifoOutValid with
    | false => exact .sending (h.cycle_first hi hvalid)
    | true =>
      cases hready : i.tReady with
      | false => exact .sending (h.cycle_stall hi hvalid hready)
      | true =>
        have htransfer := h.cycle_transfer hi hvalid hready
        split_ifs at htransfer
        · exact .writing htransfer
        · exact .sending htransfer

/-- The stream and the ownership, in one state and the next one. -/
structure Streams (g : Generics) (s : Outgoing) : Prop where
  frames : s.sent.flatMap beats = s.out ++ beats s.pending
  owner : s.r.fifoOutOwnerAXIS = true ↔ s.pending ≠ []
  stable : ∀ i, NoReset g i → s.r.axisOutPri.tValid = true → i.tReady = false →
    (s.r.next g i).axisOutPri = s.r.axisOutPri
  release : ∀ i, NoReset g i → s.r.fifoOutOwnerAXIS = true →
    ((s.r.next g i).fifoOutOwnerAXIS = false ↔
      s.r.axisOutPri.tValid = true ∧ i.tReady = true ∧ s.r.axisOutPri.tLast = true)
  offers : ∀ i, NoReset g i → s.r.fifoOutOwnerAXIS = true → s.r.axisOutPri.tValid = false →
    (s.r.next g i).axisOutPri.tValid = true

theorem Writing.streams (h : Writing s) : Streams g s := by
  have hpending : s.pending = [] := by simp [Outgoing.pending, h.owner]
  refine ⟨?_, ?_, ?_, ?_, ?_⟩
  · rw [hpending, h.out]
    simp
  · rw [hpending, h.owner]
    simp
  · intro i hi hvalid
    rw [Reg.axisOutPri, h.valid] at hvalid
    cases hvalid
  · intro i hi howner
    rw [h.owner] at howner
    cases howner
  · intro i hi howner
    rw [h.owner] at howner
    cases howner

theorem Sending.streams (h : Sending s) : Streams g s := by
  refine ⟨h.out, ⟨fun _ => h.pending, fun _ => h.owner⟩, ?_, ?_, ?_⟩
  · intro i hi hvalid hready
    have hv : s.r.fifoOutValid = true := hvalid
    have hstall := h.stall hi hv hready
    rw [Reg.axisOutPri, Reg.axisOutPri, hstall.1, hstall.2.1, hv]
  · intro i hi _
    have hstep := stepped h.running hi
    rw [hstep.owner]
    simp only [Reg.seq, h.owner, Reg.axisOutPri]
    cases s.r.fifoOutValid <;> cases i.tReady <;> cases s.r.fifoOut.empty <;> simp
  · intro i hi _ hvalid
    have hv : s.r.fifoOutValid = false := hvalid
    have hadvance := h.advance hi (by simp [hv])
    rw [h.not_empty hv, Bool.not_false] at hadvance
    exact hadvance.2.1

theorem at_run {evs : ℕ → Inp} (hnoReset : ∀ t, NoReset g (evs t))
    (hends : ∀ t, EndsFrame g (run g evs t) (evs t)) (t : ℕ) : At (run g evs t) := by
  induction t with
  | zero => exact .writing ⟨Running.init, rfl, rfl, rfl, rfl⟩
  | succ t ih =>
    rw [run, runAt_succ]
    exact ih.cycle (hnoReset t) (hends t)

theorem At.streams (h : At s) : Streams g s := by
  cases h with
  | writing h => exact h.streams
  | sending h => exact h.streams

/-- The frames leave in order and whole, however the stream is stalled and whatever the bus
does. -/
theorem streams_run (g : Generics) (evs : ℕ → Inp) (hnoReset : ∀ t, NoReset g (evs t))
    (hends : ∀ t, EndsFrame g (run g evs t) (evs t)) (t : ℕ) : Streams g (run g evs t) :=
  (at_run hnoReset hends t).streams

/-- The bus writes two words and their end. -/
def twoWords (t : ℕ) : Inp where
  rst := false
  axisInpPri := Axis.init 32
  tReady := true
  tmem :=
    match t with
    | 0 => ⟨0, 5, true, 0x0f, 0⟩
    | 1 => ⟨0, 7, true, 0x0f, 0⟩
    | 2 => ⟨1, 0x10000, true, 0x04, 0⟩
    | _ => ⟨0, 0, false, 0, 0⟩
  auxIn := 0

theorem streams_run_two_words :
    Streams ⟨0, 0, 0, 0⟩ (run ⟨0, 0, 0, 0⟩ twoWords 6) ∧
      (run ⟨0, 0, 0, 0⟩ twoWords 6).out = [(5, false), (7, true)] := by
  have hbus : ∀ t, NoReset ⟨0, 0, 0, 0⟩ (twoWords t) ∧
      (endWrite ⟨0, 0, 0, 0⟩ (twoWords t) = true → t = 2)
    | 0 => by decide
    | 1 => by decide
    | 2 => by decide
    | t + 3 => ⟨⟨rfl, fun h => absurd h (by simp [csWrite, twoWords])⟩,
        fun h => absurd h (by simp [endWrite, csWrite, twoWords])⟩
  refine ⟨streams_run _ _ (fun t => (hbus t).1) ?_ 6, rfl⟩
  intro t _ hwrite
  obtain rfl := (hbus t).2 hwrite
  have hcur : (run ⟨0, 0, 0, 0⟩ twoWords 2).cur = [5, 7] := rfl
  rw [hcur]
  decide

end Outgoing

end XvcSupport.Axis2TmemFifo
