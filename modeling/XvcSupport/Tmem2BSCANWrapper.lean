import XvcSupport.Axis2TmemFifo
import XvcSupport.Positions
import XvcSupport.Registers

namespace XvcSupport.Tmem2BSCANWrapper

open AxisToJtag Axis2TmemFifo

def CLK_DIV2_G : ℕ := 5

def AUX_RO_M_F (USE_AXIS_G : Bool) : BitVec 128 :=
  let v := 0xffffffff7ff8fee00000000000000000#128
  if USE_AXIS_G then v ||| 0x000000000000ffff0000000000000000#128 else v

def VERSION_C : BitVec 4 := 1

/-- The generics of the Axis2TmemFifo; the board responds to the chip select `TMEM_CS_G`. -/
def generics (TMEM_CS_G : BitVec 2) : Axis2TmemFifo.Generics where
  TMEM_CS_G := TMEM_CS_G
  AUX_INIT_G := 0
  AUX_RO_M_G := AUX_RO_M_F false
  VERSION_G := VERSION_C

def muxSlv (sel a b : Bool) : Bool := (a && sel) || (b && !sel)

/-- The registers of the board, and the edges of TCK so far. -/
structure Board where
  fifo : Axis2TmemFifo.Reg
  serDes : JtagSerDesCore.Reg 32
  hist : List Edge

/-- What else enters the board: the lines `bscn_cap` down to `bscn_tdo`, and the streams, which
nothing drives. -/
structure Around where
  bscn : BitVec 8
  axisTdoPri : Axis 32
  axisTmsTdiSub : Bool

namespace Board

variable (cs : BitVec 2) (tap : Tap) (s : Board)

def init : Board where
  fifo := .init (generics cs)
  serDes := .init 32
  hist := []

def auxIn : BitVec 128 := s.fifo.auxReg

def serDesInVal : Bool := s.auxIn.getLsbD 72

def bb_ena : Bool := s.auxIn.getLsbD 95

def tck : Bool := muxSlv s.bb_ena (s.auxIn.getLsbD 80) s.serDes.tck

def tms : Bool := muxSlv s.bb_ena (s.auxIn.getLsbD 81) s.serDes.pins.1

def tdi : Bool := muxSlv s.bb_ena (s.auxIn.getLsbD 82) s.serDes.pins.2

def tdo : Bool := tap s.hist s.tms s.tdi

/-- The register that shows the TDO of the serializer. -/
def tdoReg : BitVec 32 := s.auxIn.extractLsb' 96 32

def auxOut (a : Around) : BitVec 128 :=
  (if s.serDes.oValid then s.serDes.dataOut else s.auxIn.extractLsb' 96 32) ++
    BitVec.ofBool s.bb_ena ++ a.bscn ++ BitVec.ofBool s.tdi ++ BitVec.ofBool s.tms ++
    BitVec.ofBool s.tck ++ BitVec.ofBool (s.tdo tap) ++ s.auxIn.extractLsb' 80 3 ++ 0#6 ++
    BitVec.ofBool (s.serDesInVal || (s.auxIn.getLsbD 73 && !s.serDes.oValid)) ++
    BitVec.ofBool (s.serDesInVal && !s.serDes.iReady) ++ 0#3 ++ s.auxIn.extractLsb' 0 69

def serDesIn : JtagSerDesCore.In 32 where
  numBits := (s.auxIn.extractLsb' 64 5).toNat
  dataInTms := s.auxIn.extractLsb' 0 32
  dataInTdi := s.auxIn.extractLsb' 32 32
  dataInValid := s.serDesInVal
  dataOutReady := true
  tdo := s.tdo tap

def fifoIn (rst : Bool) (b : Tmem) (a : Around) : Axis2TmemFifo.Inp where
  rst := rst
  axisInpPri := a.axisTdoPri
  tReady := a.axisTmsTdiSub
  tmem := b
  auxIn := s.auxOut tap a

/-- One edge of the clock.  An edge of TCK is recorded with TMS and TDI as they were before it.  The
bits of a register change together, so at a fall the pins may have their next levels already, which
is the same to a TAP: it takes TMS and TDI at rises. -/
def clock (rst : Bool) (b : Tmem) (a : Around) : Board :=
  let s' : Board :=
    { s with
      fifo := s.fifo.next (generics cs) (s.fifoIn tap rst b a)
      serDes := if rst then .init 32 else s.serDes.next CLK_DIV2_G (s.serDesIn tap) }
  { s' with hist := if s'.tck = s.tck then s.hist else s.hist ++ [⟨s'.tck, s.tms, s.tdi⟩] }

end Board

/-- A cycle in which the bus is idle or somewhere else. -/
structure Elsewhere (cs : BitVec 2) where
  tmem : Tmem
  around : Around
  not_selected : fifoRegSel (generics cs) tmem = 0

/-- A master of the bus that maps the board at some address: how many cycles pass before its `k`-th
access, and what else enters the board in these cycles and in that of the access. -/
structure Master (cs : BitVec 2) where
  base : BitVec 11
  before : ℕ → List (Elsewhere cs)
  during : ℕ → Around

/-- The board, and the number of accesses so far. -/
structure Bus where
  board : Board
  accesses : ℕ

namespace Master

variable {cs : BitVec 2} (m : Master cs) (tap : Tap)

/-- An access to a word of 32 bits, one half of a register of 64 bits. -/
def tmem (idx : ℕ) (we : Bool) (v : BitVec 32) : Tmem where
  add := m.base ++ BitVec.ofNat 10 (idx / 2)
  datw := if idx % 2 = 0 then 0#32 ++ v else v ++ 0#32
  ena := true
  we := if !we then 0x00 else if idx % 2 = 0 then 0x0f else 0xf0
  cs := cs

/-- The cycles until the next access. -/
def wait (b : Bus) : Board :=
  (m.before b.accesses).foldl (fun s e => s.clock cs tap false e.tmem e.around) b.board

def access (idx : ℕ) (we : Bool) (v : BitVec 32) (b : Bus) : Bus where
  board := (m.wait tap b).clock cs tap false (m.tmem idx we v) (m.during b.accesses)
  accesses := b.accesses + 1

/-- What is read is on the bus one cycle after the access. -/
def registers : Registers Bus where
  rd idx b :=
    let b' := m.access tap idx false 0 b
    ((b'.board.fifo.tmemDATR (generics cs)).extractLsb' (32 * (idx % 2)) 32, b')
  wr idx v b := m.access tap idx true v b

end Master

variable {cs : BitVec 2} {tap : Tap} {s s' : Board} {a : Around}

theorem auxOut_low {k : ℕ} (hk : k < 69) :
    (s.auxOut tap a).getLsbD k = s.auxIn.getLsbD k := by
  simp only [Board.auxOut, BitVec.getLsbD_append, if_pos hk]
  simp [hk]

theorem auxOut_run : (s.auxOut tap a).getLsbD 72 = (s.serDesInVal && !s.serDes.iReady) := by
  simp only [Board.auxOut, BitVec.getLsbD_append, Nat.reduceLT, Nat.reduceSub, ↓reduceIte]
  rw [BitVec.getLsbD_ofBool]
  simp

theorem auxOut_bsy : (s.auxOut tap a).getLsbD 73 =
    (s.serDesInVal || (s.auxIn.getLsbD 73 && !s.serDes.oValid)) := by
  simp only [Board.auxOut, BitVec.getLsbD_append, Nat.reduceLT, Nat.reduceSub, ↓reduceIte]
  rw [BitVec.getLsbD_ofBool]
  simp

theorem auxOut_pins {k : ℕ} (h1 : 80 ≤ k) (h2 : k ≤ 82) :
    (s.auxOut tap a).getLsbD k = s.auxIn.getLsbD k := by
  have hk : k = 80 ∨ k = 81 ∨ k = 82 := by omega
  rcases hk with rfl | rfl | rfl
  all_goals
    simp only [Board.auxOut, BitVec.getLsbD_append, Nat.reduceLT, Nat.reduceSub, ↓reduceIte]
    rw [BitVec.getLsbD_extractLsb']
    simp only [Nat.reduceLT, decide_true, Bool.true_and, Nat.reduceAdd]

theorem auxOut_tdo : (s.auxOut tap a).getLsbD 83 = s.tdo tap := by
  simp only [Board.auxOut, BitVec.getLsbD_append, Nat.reduceLT, Nat.reduceSub, ↓reduceIte]
  rw [BitVec.getLsbD_ofBool]
  simp

theorem auxOut_ena : (s.auxOut tap a).getLsbD 95 = s.bb_ena := by
  simp only [Board.auxOut, BitVec.getLsbD_append, Nat.reduceLT, Nat.reduceSub, ↓reduceIte]
  rw [BitVec.getLsbD_ofBool]
  simp

/-- The TDO register is loaded when the serializer has a word, and kept otherwise. -/
theorem auxOut_tdoVal : (s.auxOut tap a).extractLsb' 96 32 =
    if s.serDes.oValid then s.serDes.dataOut else s.auxIn.extractLsb' 96 32 := by
  apply BitVec.eq_of_getLsbD_eq
  intro k hk
  rw [BitVec.getLsbD_extractLsb', Board.auxOut, decide_eq_true hk, Bool.true_and]
  -- the twelve parts below bit 96
  iterate 12 rw [BitVec.getLsbD_append, if_neg (by omega)]
  congr 1
  omega

/-- One cycle that leaves `aux` in the registers. -/
structure After (tap : Tap) (aux : BitVec 128) (s s' : Board) : Prop where
  running : Running s'.fifo
  auxIn : s'.auxIn = aux
  serDes : s'.serDes = s.serDes.next CLK_DIV2_G (s.serDesIn tap)
  hist : s'.hist = if s'.tck = s.tck then s.hist else s.hist ++ [⟨s'.tck, s.tms, s.tdi⟩]

/-- One cycle in which nothing is written. -/
def Passes (tap : Tap) (s s' : Board) : Prop := ∃ a, After tap (s.auxOut tap a) s s'

/-- The registers with one half written, but for the bits that are read-only. -/
def written (aux : BitVec 128) (idx : ℕ) (v : BitVec 32) : BitVec 128 :=
  putSlice aux (32 * (idx - 4)) ((v &&& ~~~ (AUX_RO_M_F false).extractLsb' (32 * (idx - 4)) 32) |||
    (aux.extractLsb' (32 * (idx - 4)) 32 &&& (AUX_RO_M_F false).extractLsb' (32 * (idx - 4)) 32))

theorem getLsbD_written {aux : BitVec 128} {idx k : ℕ} {v : BitVec 32} (hk : k < 128) :
    (written aux idx v).getLsbD k =
      if 32 * (idx - 4) ≤ k ∧ k < 32 * (idx - 4) + 32 then
        if (AUX_RO_M_F false).getLsbD k then aux.getLsbD k else v.getLsbD (k - 32 * (idx - 4))
      else aux.getLsbD k := by
  rw [written, getLsbD_putSlice _ _ _ hk]
  split_ifs with hin hro
  · have hlt : k - 32 * (idx - 4) < 32 := by omega
    have hadd : 32 * (idx - 4) + (k - 32 * (idx - 4)) = k := by omega
    simp [hlt, hadd, hro]
  · have hlt : k - 32 * (idx - 4) < 32 := by omega
    have hadd : 32 * (idx - 4) + (k - 32 * (idx - 4)) = k := by omega
    simp [hlt, hadd, hro]
  · rfl

variable (tap a) in
theorem after_clock {b : Tmem} (h : Running s.fifo)
    (hsel : (fifoRegSel (generics cs) b).getLsbD 1 = false) :
    After tap (auxNext (generics cs) (s.fifoIn tap false b a)) s (s.clock cs tap false b a) ∧
      (s.clock cs tap false b a).fifo.fifoRegSelDly = fifoRegSel (generics cs) b := by
  have hno : NoReset (generics cs) (s.fifoIn tap false b a) := by
    refine ⟨rfl, fun hwrite => ?_⟩
    have hand : ((fifoRegSel (generics cs) b).getLsbD 1 && b.we.getLsbD 2) = true := hwrite
    rw [hsel] at hand
    cases hand
  have hfifo : (s.clock cs tap false b a).fifo = _ := h.next_eq hno
  refine ⟨⟨?_, ?_, rfl, rfl⟩, ?_⟩
  · rw [hfifo]
    exact ⟨h.usrRstSeq, h.fifoUsrRst⟩
  · rw [Board.auxIn, hfifo]
    rfl
  · rw [hfifo]
    rfl

variable (tap) in
theorem passes_elsewhere (h : Running s.fifo) (e : Elsewhere cs) :
    Passes tap s (s.clock cs tap false e.tmem e.around) := by
  have hclock := after_clock tap e.around h
    (by rw [e.not_selected]; rfl : (fifoRegSel (generics cs) e.tmem).getLsbD 1 = false)
  refine ⟨e.around, ?_⟩
  have haux : auxNext (generics cs) (s.fifoIn tap false e.tmem e.around) =
      s.auxOut tap e.around := by
    simp [auxNext, Board.fifoIn, e.not_selected]
  rw [← haux]
  exact hclock.1

namespace Master

variable (m : Master cs) {idx : ℕ} {we : Bool} {v : BitVec 32}

variable (we v) in
theorem fifoRegSel_tmem (h1 : 4 ≤ idx) (h2 : idx < 8) :
    fifoRegSel (generics cs) (m.tmem idx we v) = if idx < 6 then 4 else 8 := by
  have hadd : (m.tmem idx we v).add.setWidth 10 = BitVec.ofNat 10 (idx / 2) := by
    apply BitVec.eq_of_getLsbD_eq
    intro k hk
    rw [tmem, BitVec.getLsbD_setWidth, BitVec.getLsbD_append, if_pos hk, decide_eq_true hk,
      Bool.true_and]
  have hcs : (m.tmem idx we v).cs = (generics cs).TMEM_CS_G ∧ (m.tmem idx we v).ena = true :=
    ⟨rfl, rfl⟩
  rw [fifoRegSel, if_pos hcs]
  rw [hadd]
  interval_cases idx <;> rfl

theorem getLsbD_we {k : ℕ} (hk : k < 64) :
    (m.tmem idx true v).we.getLsbD (k / 8) = decide (k / 32 = idx % 2) := by
  have hoct : k / 32 = k / 8 / 4 := by omega
  have hlt : k / 8 < 8 := by omega
  rw [hoct]
  generalize k / 8 = n at hlt
  rcases Nat.mod_two_eq_zero_or_one idx with h | h
  all_goals
    simp only [tmem, h]
    interval_cases n <;> rfl

theorem getLsbD_datw {k : ℕ} (h : k / 32 = idx % 2) :
    (m.tmem idx we v).datw.getLsbD k = v.getLsbD (k % 32) := by
  simp only [tmem]
  by_cases hidx : idx % 2 = 0
  · rw [if_pos hidx, BitVec.getLsbD_append, if_pos (by omega), Nat.mod_eq_of_lt (by omega)]
  · rw [if_neg hidx, BitVec.getLsbD_append, if_neg (by omega)]
    congr 1
    omega

theorem getLsbD_auxNext (h1 : 4 ≤ idx) (h2 : idx < 8) {k : ℕ} (hk : k < 128) :
    (auxNext (generics cs) (s.fifoIn tap false (m.tmem idx we v) a)).getLsbD k =
      if k / 64 = (idx - 4) / 2 ∧ (m.tmem idx we v).we.getLsbD (k % 64 / 8) = true then
        if (AUX_RO_M_F false).getLsbD k then (s.auxOut tap a).getLsbD k
        else (m.tmem idx we v).datw.getLsbD (k % 64)
      else (s.auxOut tap a).getLsbD k := by
  have htmem : (s.fifoIn tap false (m.tmem idx we v) a).tmem = m.tmem idx we v := rfl
  have hout : (s.fifoIn tap false (m.tmem idx we v) a).auxIn = s.auxOut tap a := rfl
  have hro : (generics cs).AUX_RO_M_G = AUX_RO_M_F false := rfl
  have hsel := m.fifoRegSel_tmem we v h1 h2
  rw [auxNext, htmem, hout, hsel]
  by_cases hidx : idx < 6
  · have hzero : (idx - 4) / 2 = 0 := by omega
    simp only [if_pos hidx]
    change (writeAux _ _ 0 _).getLsbD k = _
    rw [getLsbD_writeAux hk, htmem, hout, hro, hzero]
    by_cases hlow : k < 64
    · simp [hlow, Nat.mod_eq_of_lt hlow, Nat.div_eq_of_lt hlow]
    · have hdiv : ¬ k / 64 = 0 := by omega
      simp [hlow, hdiv]
  · have hone : (idx - 4) / 2 = 1 := by omega
    simp only [if_neg hidx]
    change (writeAux _ _ 64 _).getLsbD k = _
    rw [getLsbD_writeAux hk, htmem, hout, hro, hone]
    by_cases hlow : k < 64
    · have hdiv : ¬ k / 64 = 1 := by omega
      have hle : ¬ 64 ≤ k := by omega
      simp [hle, hdiv]
    · have hmod : k % 64 = k - 64 := by omega
      have hdiv : k / 64 = 1 := by omega
      have hle : 64 ≤ k := by omega
      simp [hmod, hdiv, hle, hk]

variable (we v) in
theorem fifoRegSel_one (h1 : 4 ≤ idx) (h2 : idx < 8) :
    (fifoRegSel (generics cs) (m.tmem idx we v)).getLsbD 1 = false := by
  rw [m.fifoRegSel_tmem we v h1 h2]
  split_ifs <;> rfl

variable (tap a v) in
theorem passes_read (h1 : 4 ≤ idx) (h2 : idx < 8) (h : Running s.fifo) :
    Passes tap s (s.clock cs tap false (m.tmem idx false v) a) := by
  have haux : auxNext (generics cs) (s.fifoIn tap false (m.tmem idx false v) a) =
      s.auxOut tap a := by
    apply BitVec.eq_of_getLsbD_eq
    intro k hk
    have hwe : ∀ n, (m.tmem idx false v).we.getLsbD n = false := fun n => by simp [tmem]
    rw [m.getLsbD_auxNext h1 h2 hk, if_neg (by simp [hwe])]
  refine ⟨a, ?_⟩
  rw [← haux]
  exact (after_clock tap a h (m.fifoRegSel_one _ v h1 h2)).1

variable (tap a v) in
theorem read_value (h1 : 4 ≤ idx) (h2 : idx < 8) (h : Running s.fifo) :
    ((s.clock cs tap false (m.tmem idx false v) a).fifo.tmemDATR (generics cs)).extractLsb'
      (32 * (idx % 2)) 32 =
      (s.clock cs tap false (m.tmem idx false v) a).auxIn.extractLsb' (32 * (idx - 4)) 32 := by
  have hdly := (after_clock tap a h (m.fifoRegSel_one false v h1 h2)).2
  rw [m.fifoRegSel_tmem false v h1 h2] at hdly
  have hhalf (lo : ℕ) (hlo : lo + 64 ≤ 128) (h : lo + 32 * (idx % 2) = 32 * (idx - 4))
      (x : BitVec 128) : (x.extractLsb' lo 64).extractLsb' (32 * (idx % 2)) 32 =
        x.extractLsb' (32 * (idx - 4)) 32 := by
    apply BitVec.eq_of_getLsbD_eq
    intro k hk
    have hlt : 32 * (idx % 2) + k < 64 := by omega
    simp [hk, hlt, ← h, Nat.add_assoc]
  rw [Axis2TmemFifo.Reg.tmemDATR, hdly]
  split_ifs with hidx
  · exact hhalf 0 (by decide) (by omega) _
  · exact hhalf 64 (by decide) (by omega) _

variable (tap a v) in
theorem after_write (h1 : 4 ≤ idx) (h2 : idx < 8) (h : Running s.fifo) :
    After tap (written (s.auxOut tap a) idx v) s (s.clock cs tap false (m.tmem idx true v) a) := by
  have haux : auxNext (generics cs) (s.fifoIn tap false (m.tmem idx true v) a) =
      written (s.auxOut tap a) idx v := by
    apply BitVec.eq_of_getLsbD_eq
    intro k hk
    rw [m.getLsbD_auxNext h1 h2 hk, getLsbD_written hk, m.getLsbD_we (Nat.mod_lt k (by decide))]
    by_cases hin : 32 * (idx - 4) ≤ k ∧ k < 32 * (idx - 4) + 32
    · have hhalf : k % 64 / 32 = idx % 2 := by omega
      have hmod : k % 64 % 32 = k - 32 * (idx - 4) := by omega
      rw [if_pos hin, if_pos ⟨by omega, by simp [hhalf]⟩, m.getLsbD_datw hhalf, hmod]
    · rw [if_neg hin, if_neg]
      rintro ⟨hreg, hhalf⟩
      have hhalf := of_decide_eq_true hhalf
      omega
  rw [← haux]
  exact (after_clock tap a h (m.fifoRegSel_one _ v h1 h2)).1

end Master

/-- What holds on while nothing is written. -/
structure Steady (tap : Tap) (P : Board → Prop) : Prop where
  running : ∀ s, P s → Running s.fifo
  passes : ∀ s s', P s → Passes tap s s' → P s'

namespace Steady

variable {P : Board → Prop} (hP : Steady tap P) (m : Master cs) {b : Bus} (h : P b.board) {idx : ℕ}

include hP h

theorem wait : P (m.wait tap b) := by
  have hfold : ∀ (es : List (Elsewhere cs)) (s : Board), P s →
      P (es.foldl (fun s e => s.clock cs tap false e.tmem e.around) s) := by
    intro es
    induction es with
    | nil => exact fun s hs => hs
    | cons e es ih =>
      intro s hs
      exact ih _ (hP.passes s _ hs (passes_elsewhere tap (hP.running s hs) e))
  exact hfold _ _ h

theorem rd (h1 : 4 ≤ idx) (h2 : idx < 8) :
    ∃ s, P s ∧ Passes tap s ((m.registers tap).rd idx b).2.board ∧
      ((m.registers tap).rd idx b).1 =
        ((m.registers tap).rd idx b).2.board.auxIn.extractLsb' (32 * (idx - 4)) 32 := by
  have hrun := hP.running _ (hP.wait m h)
  exact ⟨m.wait tap b, hP.wait m h, m.passes_read tap _ 0 h1 h2 hrun,
    m.read_value tap _ 0 h1 h2 hrun⟩

theorem rd_keeps (h1 : 4 ≤ idx) (h2 : idx < 8) : P ((m.registers tap).rd idx b).2.board := by
  obtain ⟨s, hs, hpass, _⟩ := hP.rd m h h1 h2
  exact hP.passes s _ hs hpass

theorem wr (h1 : 4 ≤ idx) (h2 : idx < 8) (v : BitVec 32) :
    ∃ s a, P s ∧ After tap (written (s.auxOut tap a) idx v) s
      ((m.registers tap).wr idx v b).board := by
  have hrun := hP.running _ (hP.wait m h)
  exact ⟨m.wait tap b, m.during b.accesses, hP.wait m h, m.after_write tap _ v h1 h2 hrun⟩

end Steady

end XvcSupport.Tmem2BSCANWrapper
