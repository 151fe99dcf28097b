import XvcSupport.Axis2TmemFifo
import XvcSupport.Answers

namespace XvcSupport.Axis2TmemFifo

open AxisToJtag

variable (g : Generics)

def dataRead (b : Tmem) : Bool := (fifoRegSel g b).getLsbD 0 && b.we == 0

variable {g}

theorem tmemDATR_data {r : Reg} (h : r.fifoRegSelDly = 1) :
    (r.tmemDATR g).setWidth 32 = r.fifoInp.dO := by
  have hmux : r.tmemDATR g = 0x6666aaaa#32 ++ r.fifoInp.dO := by
    rw [Reg.tmemDATR, h]
    rfl
  apply BitVec.eq_of_getLsbD_eq
  intro n hn
  rw [hmux, BitVec.getLsbD_setWidth, BitVec.getLsbD_append, if_pos hn]
  simp [hn]

theorem tmemDATR_status {r : Reg} (h : r.fifoRegSelDly = 2) :
    (r.tmemDATR g).extractLsb' 0 16 = r.statusReg.extractLsb' 0 16 ∧
      (r.tmemDATR g).getLsbD 17 = r.statusReg.getLsbD 17 := by
  have hmux : r.tmemDATR g = (g.VERSION_G ++ DEPTH_KB_C ++ r.statusReg).setWidth 64 := by
    rw [Reg.tmemDATR, h]
    rfl
  have hbit : ∀ n < 24, (r.tmemDATR g).getLsbD n = r.statusReg.getLsbD n := by
    intro n hn
    rw [hmux, BitVec.getLsbD_setWidth, BitVec.getLsbD_append, if_pos hn]
    simp
    omega
  refine ⟨?_, hbit 17 (by decide)⟩
  apply BitVec.eq_of_getLsbD_eq
  intro n hn
  rw [BitVec.getLsbD_extractLsb', BitVec.getLsbD_extractLsb', hbit _ (by omega)]

theorem status_count (r : Reg) : r.status.extractLsb' 0 16 = r.wcntReg ∧
    r.status.getLsbD 17 = r.fifoInpOwnerAXIS := by
  constructor
  · apply BitVec.eq_of_getLsbD_eq
    intro n hn
    rw [BitVec.getLsbD_extractLsb', Reg.status, BitVec.getLsbD_append, if_pos (by omega)]
    simp [hn]
  · have hlow : (17 : ℕ) < 18 := by decide
    simp only [Reg.status, BitVec.getLsbD_append]
    simp

/-- The entity, the words the stream has still to transfer, and the words the bus has read. -/
structure Incoming where
  r : Reg
  src : List (BitVec 32 × Bool)
  reads : List (BitVec 32)

namespace Incoming

variable (g) in
def init (frames : List (List (BitVec 32))) : Incoming where
  r := .init g
  src := frames.flatMap beats
  reads := []

/-- The inputs; `tValid` of an event says whether the stream has its next word. -/
def inp (s : Incoming) (ev : Inp) : Inp :=
  { ev with
    axisInpPri :=
      match s.src with
      | [] => Axis.init 32
      | (data, last) :: _ => ⟨ev.axisInpPri.tValid, last, data⟩ }

variable (g) in
/-- One cycle; a read while the bus owns the FIFO returns its word in the next one. -/
def cycle (s : Incoming) (ev : Inp) : Incoming where
  r := s.r.next g (s.inp ev)
  src := if s.r.fifoInpWREN (s.inp ev) then s.src.tail else s.src
  reads :=
    if s.r.tmemRDEN g ev then
      s.reads ++ [((s.r.next g (s.inp ev)).tmemDATR g).setWidth 32]
    else s.reads

variable (g) in
def run (frames : List (List (BitVec 32))) (evs : ℕ → Inp) (t : ℕ) : Incoming :=
  runAt (cycle g) (init g frames) evs t

/-- The stream owns the FIFO: the frames `done` are read, and `left` is still to come of the first
frame of `rest`. -/
structure Filling (frames : List (List (BitVec 32))) (s : Incoming)
    (done rest : List (List (BitVec 32))) (left : List (BitVec 32)) : Prop where
  running : Running s.r
  wcntCnt : s.r.wcntCnt.toNat = s.r.fifoInp.queue.length
  wcntReg : s.r.wcntReg = 0
  split : frames = done ++ rest
  head : rest.headD [] = s.r.fifoInp.queue ++ left
  last : left = [] → rest = []
  src : s.src = beats left ++ rest.tail.flatMap beats
  reads : s.reads = done.flatten

/-- The bus owns the FIFO and has read `got` of the frame `f`. -/
structure Draining (frames : List (List (BitVec 32))) (s : Incoming)
    (done more : List (List (BitVec 32))) (f got : List (BitVec 32)) : Prop where
  running : Running s.r
  wcntCnt : s.r.wcntCnt.toNat = s.r.fifoInp.queue.length
  wcntReg : s.r.wcntReg = s.r.wcntCnt
  split : frames = done ++ f :: more
  frame : f = got ++ s.r.fifoInp.queue
  queue : s.r.fifoInp.queue ≠ []
  src : s.src = more.flatMap beats
  reads : s.reads = done.flatten ++ got

inductive At (frames : List (List (BitVec 32))) (s : Incoming) : Prop
  | filling (done rest : List (List (BitVec 32))) (left : List (BitVec 32)) :
      Filling frames s done rest left → At frames s
  | draining (done more : List (List (BitVec 32))) (f got : List (BitVec 32)) :
      Draining frames s done more f got → At frames s

variable {frames done rest more : List (List (BitVec 32))} {left f got : List (BitVec 32)}
  {s : Incoming} {ev : Inp}

theorem headD_length_le (hframes : ∀ f ∈ rest, f.length ≤ FifoSync.size) :
    (rest.headD []).length ≤ FifoSync.size := by
  cases rest with
  | nil => exact Nat.zero_le _
  | cons f rest => exact hframes f (by simp)

/-- While it owns the FIFO, the stream is never held up. -/
theorem Filling.not_full (h : Filling frames s done rest left)
    (hframes : ∀ f ∈ rest, f.length ≤ FifoSync.size) : s.r.fifoInp.full = false := by
  have hle := headD_length_le hframes
  rw [h.head, List.length_append] at hle
  rw [FifoSync.full, decide_eq_false_iff_not]
  intro hfull
  have hnil : left = [] := List.eq_nil_of_length_eq_zero (by omega)
  have hhead := h.head
  rw [h.last hnil, hnil] at hhead
  have hqueue : s.r.fifoInp.queue = [] := by simpa using hhead.symm
  rw [hqueue] at hfull
  exact absurd hfull (by decide)

theorem Filling.tReadyInp (h : Filling frames s done rest left)
    (hframes : ∀ f ∈ rest, f.length ≤ FifoSync.size) : s.r.tReadyInp = true := by
  simp [Reg.tReadyInp, Reg.fifoInpOwnerAXIS, h.not_full hframes, h.wcntReg]

theorem Filling.tmemRDEN (h : Filling frames s done rest left) (i : Inp) :
    s.r.tmemRDEN g i = false := by
  simp [Reg.tmemRDEN, Reg.fifoInpOwnerAXIS, h.wcntReg]

theorem Draining.wcntReg_ne (h : Draining frames s done more f got) : s.r.wcntReg ≠ 0 := by
  intro hzero
  have hcnt := h.wcntCnt
  rw [← h.wcntReg, hzero] at hcnt
  exact h.queue (List.eq_nil_of_length_eq_zero hcnt.symm)

/-- The registers of the incoming side after a cycle. -/
structure Stepped (g : Generics) (r r' : Reg) (i : Inp) : Prop where
  running : Running r'
  wcntReg : r'.wcntReg = (r.seq g i).wcntReg
  wcntCnt : r'.wcntCnt = (r.seq g i).wcntCnt
  fifoInp : r'.fifoInp =
    r.fifoInp.clock false (r.fifoInpWREN i) i.axisInpPri.tData (r.fifoInpRDEN g i)
  fifoRegSelDly : r'.fifoRegSelDly = fifoRegSel g i.tmem

theorem stepped {r : Reg} {i : Inp} (h : Running r) (hi : NoReset g i) :
    Stepped g r (r.next g i) i := by
  have heq := h.next_eq hi
  refine ⟨h.next hi, ?_, ?_, ?_, ?_⟩ <;> rw [heq]
  rfl

theorem Filling.wait (h : Filling frames s done rest left) (hi : NoReset g ev)
    (hwren : s.r.fifoInpWREN (s.inp ev) = false) :
    Filling frames (s.cycle g ev) done rest left := by
  have hrden : s.r.tmemRDEN g (s.inp ev) = false := h.tmemRDEN _
  have hstep := stepped h.running (i := s.inp ev) hi
  have hfifo : (s.cycle g ev).r.fifoInp = s.r.fifoInp := by
    rw [cycle, hstep.fifoInp]
    simp [FifoSync.clock, hwren, Reg.fifoInpRDEN, Reg.tmemRDENOnce, hrden]
  refine ⟨hstep.running, ?_, ?_, h.split, ?_, h.last, ?_, ?_⟩
  · rw [hfifo, ← h.wcntCnt, cycle, hstep.wcntCnt]
    simp [Reg.seq, hwren, Reg.fifoInpRDEN, Reg.tmemRDENOnce, hrden]
  · rw [cycle, hstep.wcntReg]
    simp [Reg.seq, hwren, Reg.tmemRDENOnce, hrden, h.wcntReg]
  · rw [hfifo]
    exact h.head
  · rw [cycle, hwren]
    exact h.src
  · have hrden' : s.r.tmemRDEN g ev = false := h.tmemRDEN _
    rw [cycle, hrden']
    exact h.reads

theorem Filling.transfer {w : BitVec 32} {ws : List (BitVec 32)}
    (h : Filling frames s done rest (w :: ws)) (hframes : ∀ f ∈ rest, f.length ≤ FifoSync.size)
    (hi : NoReset g ev) (hwren : s.r.fifoInpWREN (s.inp ev) = true) :
    At frames (s.cycle g ev) := by
  have hrden : s.r.tmemRDEN g (s.inp ev) = false := h.tmemRDEN _
  have hrden' : s.r.tmemRDEN g ev = false := h.tmemRDEN _
  have hstep := stepped h.running (i := s.inp ev) hi
  have hsrc : s.src = (w, ws.isEmpty) :: (beats ws ++ rest.tail.flatMap beats) := by
    simpa using h.src
  have hinp : (s.inp ev).axisInpPri = ⟨ev.axisInpPri.tValid, ws.isEmpty, w⟩ := by
    simp [inp, hsrc]
  have hqueue : (s.cycle g ev).r.fifoInp.queue = s.r.fifoInp.queue ++ [w] := by
    rw [cycle, hstep.fifoInp]
    simp [FifoSync.clock, hwren, Reg.fifoInpRDEN, Reg.tmemRDENOnce, hrden, h.not_full hframes,
      hinp]
  have hlen : s.r.fifoInp.queue.length < FifoSync.size := by
    have hle := headD_length_le hframes
    rw [h.head, List.length_append, List.length_cons] at hle
    omega
  have hsucc : (s.r.wcntCnt + 1).toNat = s.r.fifoInp.queue.length + 1 := by
    rw [BitVec.toNat_add, h.wcntCnt]
    exact Nat.mod_eq_of_lt (by unfold FifoSync.size at hlen; simp; omega)
  have hcnt : (s.cycle g ev).r.wcntCnt = s.r.wcntCnt + 1 := by
    rw [cycle, hstep.wcntCnt]
    simp [Reg.seq, hwren, Reg.fifoInpRDEN, Reg.tmemRDENOnce, hrden]
  have hcount : (s.cycle g ev).r.wcntCnt.toNat = (s.cycle g ev).r.fifoInp.queue.length := by
    rw [hcnt, hqueue, hsucc, List.length_append, List.length_singleton]
  have hrest : (s.cycle g ev).src = beats ws ++ rest.tail.flatMap beats := by
    rw [cycle, hwren, if_pos rfl, hsrc, List.tail_cons]
  have hreads : (s.cycle g ev).reads = done.flatten := by
    rw [cycle, hrden']
    exact h.reads
  have hreg : (s.cycle g ev).r.wcntReg = if ws.isEmpty then s.r.wcntCnt + 1 else 0 := by
    rw [cycle, hstep.wcntReg]
    simp [Reg.seq, hwren, Reg.tmemRDENOnce, hrden, h.wcntReg, hinp]
  cases ws with
  | nil =>
    -- the last word: the bus takes over
    have hne : rest ≠ [] := by
      rintro rfl
      simpa using h.head
    obtain ⟨f, more, rfl⟩ := List.exists_cons_of_ne_nil hne
    refine .draining done more f [] ⟨hstep.running, hcount, ?_, h.split, ?_, ?_, ?_, ?_⟩
    · rw [hreg, hcnt]
      rfl
    · rw [hqueue, List.nil_append]
      exact h.head
    · simp [hqueue]
    · rw [hrest]
      rfl
    · rw [hreads, List.append_nil]
  | cons w' ws =>
    refine .filling done rest (w' :: ws) ⟨hstep.running, hcount, hreg, h.split, ?_, by simp, hrest,
      hreads⟩
    rw [hqueue, h.head, List.append_assoc, List.singleton_append]

theorem Filling.cycle (h : Filling frames s done rest left)
    (hframes : ∀ f ∈ rest, f.length ≤ FifoSync.size) (hi : NoReset g ev) :
    At frames (s.cycle g ev) := by
  cases hwren : s.r.fifoInpWREN (s.inp ev) with
  | false => exact .filling done rest left (h.wait hi hwren)
  | true =>
    cases left with
    | nil =>
      -- without words to transfer nothing is valid
      have hsrc : s.src = [] := by
        rw [h.src, h.last rfl]
        rfl
      simp [Reg.fifoInpWREN, inp, hsrc, Axis.init] at hwren
    | cons w ws => exact h.transfer hframes hi hwren

/-- While the bus owns the FIFO nothing is accepted. -/
theorem Draining.fifoInpWREN (h : Draining frames s done more f got) (i : Inp) :
    s.r.fifoInpWREN i = false := by
  have howner : s.r.fifoInpOwnerAXIS = false := decide_eq_false h.wcntReg_ne
  simp [Reg.fifoInpWREN, Reg.tReadyInp, howner]

theorem Draining.wait (h : Draining frames s done more f got) (hi : NoReset g ev)
    (hread : s.r.tmemRDEN g ev = false) : Draining frames (s.cycle g ev) done more f got := by
  have hwren : s.r.fifoInpWREN (s.inp ev) = false := h.fifoInpWREN _
  have hrden : s.r.tmemRDEN g (s.inp ev) = false := hread
  have hstep := stepped h.running (i := s.inp ev) hi
  have hfifo : (s.cycle g ev).r.fifoInp = s.r.fifoInp := by
    rw [Incoming.cycle, hstep.fifoInp]
    simp [FifoSync.clock, hwren, Reg.fifoInpRDEN, Reg.tmemRDENOnce, hrden]
  have hcnt : (s.cycle g ev).r.wcntCnt = s.r.wcntCnt := by
    rw [Incoming.cycle, hstep.wcntCnt]
    simp [Reg.seq, hwren, Reg.fifoInpRDEN, Reg.tmemRDENOnce, hrden]
  refine ⟨hstep.running, ?_, ?_, h.split, ?_, ?_, ?_, ?_⟩
  · rw [hfifo, hcnt, h.wcntCnt]
  · rw [hcnt, ← h.wcntReg, Incoming.cycle, hstep.wcntReg]
    simp [Reg.seq, hwren, Reg.tmemRDENOnce, hrden]
  · rw [hfifo]
    exact h.frame
  · rw [hfifo]
    exact h.queue
  · rw [Incoming.cycle, hwren]
    exact h.src
  · rw [Incoming.cycle, hread]
    exact h.reads

theorem Draining.read (h : Draining frames s done more f got) (hne : ∀ f ∈ more, f ≠ [])
    (hi : NoReset g ev) (hread : s.r.tmemRDEN g ev = true) (hidle : s.r.fifoInpRDENs = false) :
    At frames (s.cycle g ev) := by
  have hwren : s.r.fifoInpWREN (s.inp ev) = false := h.fifoInpWREN _
  have hrden : s.r.tmemRDEN g (s.inp ev) = true := hread
  have hstep := stepped h.running (i := s.inp ev) hi
  obtain ⟨w, q, hq⟩ := List.exists_cons_of_ne_nil h.queue
  have hrden' : s.r.fifoInpRDEN g (s.inp ev) = true := by
    simp [Reg.fifoInpRDEN, Reg.tmemRDENOnce, hrden, hidle, FifoSync.empty, hq,
      h.running.rstInProg]
  have hfifo : (s.cycle g ev).r.fifoInp = ⟨q, w⟩ := by
    rw [Incoming.cycle, hstep.fifoInp]
    simp [FifoSync.clock, hwren, hrden', hq]
  have hcnt : (s.cycle g ev).r.wcntCnt = s.r.wcntCnt - 1 := by
    rw [Incoming.cycle, hstep.wcntCnt]
    simp [Reg.seq, hwren, hrden']
  have hreg : (s.cycle g ev).r.wcntReg = s.r.wcntReg - 1 := by
    rw [Incoming.cycle, hstep.wcntReg]
    simp [Reg.seq, hwren, Reg.tmemRDENOnce, hrden, hidle]
  have hpred : (s.r.wcntCnt - 1).toNat = q.length := by
    have hcount := h.wcntCnt
    rw [hq, List.length_cons] at hcount
    rw [BitVec.toNat_sub, hcount, show (1 : BitVec 16).toNat = 1 from rfl]
    have hlt := s.r.wcntCnt.isLt
    omega
  -- the word that the bus gets in the next cycle
  have hword : ((s.r.next g (s.inp ev)).tmemDATR g).setWidth 32 = w := by
    have hsel : (fifoRegSel g ev.tmem).getLsbD 0 = true := by
      rw [Reg.tmemRDEN, Bool.and_eq_true, Bool.and_eq_true] at hread
      exact hread.1.1
    have hdly : (s.r.next g (s.inp ev)).fifoRegSelDly = 1 :=
      hstep.fifoRegSelDly.trans (fifoRegSel_eq_of_getLsbD (by decide) hsel)
    rw [tmemDATR_data hdly]
    exact congrArg FifoSync.dO hfifo
  have hreads : (s.cycle g ev).reads = done.flatten ++ (got ++ [w]) := by
    rw [Incoming.cycle, if_pos hread, hword, h.reads, List.append_assoc]
  have hsrc : (s.cycle g ev).src = more.flatMap beats := by
    rw [Incoming.cycle, hwren]
    exact h.src
  have hframe : f = (got ++ [w]) ++ q := by
    rw [h.frame, hq, List.append_assoc, List.singleton_append]
  cases q with
  | nil =>
    -- the last word: the stream takes over
    refine .filling (done ++ [f]) more (more.headD []) ⟨hstep.running, ?_, ?_, ?_, ?_, ?_, ?_, ?_⟩
    · rw [hcnt, hfifo, hpred]
    · rw [hreg, h.wcntReg]
      exact BitVec.eq_of_toNat_eq hpred
    · rw [h.split, List.append_assoc, List.singleton_append]
    · rw [hfifo, List.nil_append]
    · intro hnil
      cases more with
      | nil => rfl
      | cons f' more => exact absurd hnil (hne f' (by simp))
    · rw [hsrc]
      cases more with
      | nil => rfl
      | cons f' more => rfl
    · rw [hreads, List.flatten_append, List.flatten_singleton, hframe, List.append_nil]
  | cons w' q =>
    refine .draining done more f (got ++ [w]) ⟨hstep.running, ?_, ?_, h.split, ?_, ?_, hsrc, hreads⟩
    · rw [hcnt, hfifo, hpred]
    · rw [hreg, hcnt, h.wcntReg]
    · rw [hfifo]
      exact hframe
    · rw [hfifo]
      simp

/-- The bus does not read again in the cycle after a read. -/
def ReadsApart (g : Generics) (evs : ℕ → Inp) : Prop :=
  ∀ t, dataRead g (evs t).tmem = true → dataRead g (evs (t + 1)).tmem = false

theorem tmemRDEN_dataRead {r : Reg} {i : Inp} (h : r.tmemRDEN g i = true) :
    dataRead g i.tmem = true := by
  rw [Reg.tmemRDEN, Bool.and_eq_true] at h
  exact h.1

variable {evs : ℕ → Inp}

theorem run_idle (hnoReset : ∀ t, NoReset g (evs t)) (happart : ReadsApart g evs) {t : ℕ}
    (hrunning : ∀ u ≤ t, Running (run g frames evs u).r)
    (hread : (run g frames evs t).r.tmemRDEN g (evs t) = true) :
    (run g frames evs t).r.fifoInpRDENs = false := by
  cases t with
  | zero => rfl
  | succ t =>
    have hrun : run g frames evs (t + 1) = (run g frames evs t).cycle g (evs t) := runAt_succ t
    have hnext := (hrunning t (by omega)).next_eq (i := (run g frames evs t).inp (evs t))
      (hnoReset t)
    by_contra hbusy
    rw [Bool.not_eq_false, hrun, Incoming.cycle, hnext] at hbusy
    have hbefore := happart t (tmemRDEN_dataRead (i := (run g frames evs t).inp (evs t)) hbusy)
    rw [tmemRDEN_dataRead hread] at hbefore
    cases hbefore

theorem At.running (h : At frames s) : Running s.r := by
  cases h with
  | filling done rest left h => exact h.running
  | draining done more f got h => exact h.running

theorem At.cycle (h : At frames s) (hframes : ∀ f ∈ frames, f ≠ [] ∧ f.length ≤ FifoSync.size)
    (hi : NoReset g ev)
    (hidle : s.r.tmemRDEN g ev = true → s.r.fifoInpRDENs = false) :
    At frames (s.cycle g ev) := by
  cases h with
  | filling done rest left h =>
    apply h.cycle _ hi
    intro f hf
    exact (hframes f (by rw [h.split]; exact List.mem_append_right done hf)).2
  | draining done more f got h =>
    cases hread : s.r.tmemRDEN g ev with
    | false => exact .draining done more f got (h.wait hi hread)
    | true =>
      apply h.read _ hi hread (hidle hread)
      intro f' hf'
      exact (hframes f' (by rw [h.split]; simp [hf'])).1

theorem at_run (hframes : ∀ f ∈ frames, f ≠ [] ∧ f.length ≤ FifoSync.size)
    (hnoReset : ∀ t, NoReset g (evs t)) (happart : ReadsApart g evs) (t : ℕ) :
    At frames (run g frames evs t) := by
  induction t using Nat.strong_induction_on with
  | _ t ih =>
    cases t with
    | zero =>
      refine .filling [] frames (frames.headD []) ⟨Running.init, rfl, rfl, rfl, rfl, ?_, ?_, rfl⟩
      · intro hnil
        cases frames with
        | nil => rfl
        | cons f frames => exact absurd hnil (hframes f (by simp)).1
      · cases frames with
        | nil => rfl
        | cons f frames => rfl
    | succ t =>
      rw [run, runAt_succ]
      apply (ih t (by omega)).cycle hframes (hnoReset t)
      exact run_idle hnoReset happart fun u hu => (ih u (by omega)).running

/-- The counters, the ownership and the words read so far, in one state. -/
structure Serves (g : Generics) (frames : List (List (BitVec 32))) (s : Incoming) : Prop where
  wcntCnt : s.r.wcntCnt.toNat = s.r.fifoInp.queue.length
  wcntReg : s.r.wcntReg = 0 ∨ s.r.wcntReg = s.r.wcntCnt
  accepts : ∀ i, s.r.wcntReg ≠ 0 → s.r.fifoInpWREN i = false
  pops : ∀ i, s.r.wcntReg = 0 → s.r.fifoInpRDEN g i = false
  tReady : s.r.tReadyInp = decide (s.r.wcntReg = 0)
  words : (s.r.wcntReg = 0 ∧ ∃ done rest, frames = done ++ rest ∧ s.reads = done.flatten) ∨
    ∃ done f got more, frames = done ++ f :: more ∧ s.reads = done.flatten ++ got ∧
      f = got ++ s.r.fifoInp.queue ∧ s.src = more.flatMap beats ∧
      s.r.wcntReg.toNat = f.length - got.length
  shown : ∀ i, NoReset g i → fifoRegSel g i.tmem = 2 →
    ((s.r.next g i).tmemDATR g).extractLsb' 0 16 = s.r.wcntReg ∧
      ((s.r.next g i).tmemDATR g).getLsbD 17 = decide (s.r.wcntReg = 0)

theorem shown_status {r : Reg} (h : Running r) {i : Inp} (hi : NoReset g i)
    (hsel : fifoRegSel g i.tmem = 2) :
    ((r.next g i).tmemDATR g).extractLsb' 0 16 = r.wcntReg ∧
      ((r.next g i).tmemDATR g).getLsbD 17 = decide (r.wcntReg = 0) := by
  have heq := h.next_eq hi
  have hdly : (r.next g i).fifoRegSelDly = 2 := by
    rw [heq]
    exact hsel
  have hstatus : (r.next g i).statusReg = r.status := by
    rw [heq]
    rfl
  rw [(tmemDATR_status hdly).1, (tmemDATR_status hdly).2, hstatus]
  exact status_count r

theorem At.serves (h : At frames s) (hframes : ∀ f ∈ frames, f ≠ [] ∧ f.length ≤ FifoSync.size) :
    Serves g frames s := by
  cases h with
  | filling done rest left h =>
    have hready := h.tReadyInp fun f hf =>
      (hframes f (by rw [h.split]; exact List.mem_append_right done hf)).2
    refine ⟨h.wcntCnt, .inl h.wcntReg, fun i hne => absurd h.wcntReg hne, fun i _ => ?_, ?_,
      .inl ⟨h.wcntReg, done, rest, h.split, h.reads⟩, fun i hi => shown_status h.running hi⟩
    · simp [Reg.fifoInpRDEN, Reg.tmemRDENOnce, h.tmemRDEN]
    · rw [hready, h.wcntReg]
      rfl
  | draining done more f got h =>
    refine ⟨h.wcntCnt, .inr h.wcntReg, fun i _ => h.fifoInpWREN i,
      fun i hzero => absurd hzero h.wcntReg_ne, ?_,
      .inr ⟨done, f, got, more, h.split, h.reads, h.frame, h.src, ?_⟩,
      fun i hi => shown_status h.running hi⟩
    · have howner : s.r.fifoInpOwnerAXIS = false := decide_eq_false h.wcntReg_ne
      rw [Reg.tReadyInp, howner, Bool.and_false, decide_eq_false h.wcntReg_ne]
    · rw [h.wcntReg, h.wcntCnt, h.frame, List.length_append]
      omega

/-- Frames of up to 512 words reach the bus word by word, whatever stream and bus do. -/
theorem serves_run (g : Generics) (frames : List (List (BitVec 32))) (evs : ℕ → Inp)
    (hframes : ∀ f ∈ frames, f ≠ [] ∧ f.length ≤ FifoSync.size)
    (hnoReset : ∀ t, NoReset g (evs t)) (happart : ReadsApart g evs) (t : ℕ) :
    Serves g frames (run g frames evs t) :=
  (at_run hframes hnoReset happart t).serves hframes

/-- Inputs of a stream that is always ready and of a bus that reads in every other cycle. -/
def busy (t : ℕ) : Inp where
  rst := false
  axisInpPri := ⟨true, false, 0⟩
  tReady := true
  tmem := ⟨0, 0, t % 2 = 0, 0, 0⟩
  auxIn := 0

theorem serves_run_two_words :
    Serves ⟨0, 0, 0, 0⟩ [[5, 7], [9]] (run ⟨0, 0, 0, 0⟩ [[5, 7], [9]] busy 5) ∧
      (run ⟨0, 0, 0, 0⟩ [[5, 7], [9]] busy 5).reads = [5, 7] := by
  refine ⟨serves_run _ _ _ (by decide) (fun t => ⟨rfl, ?_⟩) ?_ 5, rfl⟩
  · simp [csWrite, busy]
  · intro t h
    by_cases heven : t % 2 = 0
    · have hodd : ¬ (t + 1) % 2 = 0 := by omega
      simp [dataRead, fifoRegSel, busy, hodd]
    · simp [dataRead, fifoRegSel, busy, heven] at h

end Incoming

end XvcSupport.Axis2TmemFifo
