import XvcSupport.Words
import XvcSupport.Runs
import XvcSupport.Device

/-!
# Axis2TmemFifo

Two FIFOs between streams and a bus of 64 bits. The FIFO for the incoming stream belongs to the
stream until a frame is complete, and then to the bus until all words of the frame are read. The
FIFO for the outgoing stream belongs to the bus until the end of a frame is written, and then to
the stream until its last word is transferred.
-/

namespace XvcSupport

/-- `FIFO_SYNC_MACRO` without output register, as a queue with its read data. -/
structure FifoSync where
  queue : List (BitVec 32)
  dO : BitVec 32

namespace FifoSync

def size : ℕ := 512

def init : FifoSync := ⟨[], 0⟩

def full (f : FifoSync) : Bool := f.queue.length = size

def empty (f : FifoSync) : Bool := f.queue = []

def clock (f : FifoSync) (rst wren : Bool) (di : BitVec 32) (rden : Bool) : FifoSync :=
  if rst then { f with queue := [] }
  else
    { queue := (if rden then f.queue.tail else f.queue) ++ (if wren && !f.full then [di] else [])
      dO := if rden then f.queue.headD f.dO else f.dO }

end FifoSync

namespace Axis2TmemFifo

structure Generics where
  TMEM_CS_G : BitVec 2
  AUX_INIT_G : BitVec 128
  AUX_RO_M_G : BitVec 128
  VERSION_G : BitVec 4

def DEPTH_KB_C : BitVec 4 := 2

/-- The bus; the address is `tmemADD(23 downto 3)`. -/
structure Tmem where
  add : BitVec 21
  datw : BitVec 64
  ena : Bool
  we : BitVec 8
  cs : BitVec 2

/-- The signals that are registers. -/
structure Reg where
  usrRstSeq : BitVec 3
  fifoUsrRst : Bool
  fifoInp : FifoSync
  fifoOut : FifoSync
  fifoInpRDENs : Bool
  wcntReg : BitVec 16
  wcntCnt : BitVec 16
  auxReg : BitVec 128
  fifoOutValid : Bool
  fifoOutOwnerAXIS : Bool
  fifoRegSelDly : BitVec 4
  statusReg : BitVec 24
  fifoInpIrqEna : Bool
  fifoOutIrqEna : Bool

/-- The registers as a reset leaves them.  All but `fifoOutValid`, `fifoRegSelDly` and `statusReg`
have the same initial values; these three have none. -/
def Reg.init (g : Generics) : Reg where
  usrRstSeq := 0
  fifoUsrRst := false
  fifoInp := .init
  fifoOut := .init
  fifoInpRDENs := false
  wcntReg := 0
  wcntCnt := 0
  auxReg := g.AUX_INIT_G
  fifoOutValid := false
  fifoOutOwnerAXIS := false
  fifoRegSelDly := 0
  statusReg := 0
  fifoInpIrqEna := false
  fifoOutIrqEna := false

/-- The inputs in one cycle. -/
structure Inp where
  rst : Bool
  axisInpPri : Axis 32
  tReady : Bool
  tmem : Tmem
  auxIn : BitVec 128

/-- `P_tmemSEL`. -/
def fifoRegSel (g : Generics) (b : Tmem) : BitVec 4 :=
  if b.cs = g.TMEM_CS_G ∧ b.ena then
    match (b.add.setWidth 10).toNat with
    | 0 => 0b0001
    | 1 => 0b0010
    | 2 => 0b0100
    | 3 => 0b1000
    | _ => 0b0000
  else 0b0000

section

variable (g : Generics) (r : Reg) (i : Inp)

def Reg.aRst : Bool := 4 < r.usrRstSeq

def Reg.rstInProg : Bool := r.usrRstSeq ≠ 0

def Reg.fifoInpOwnerAXIS : Bool := r.wcntReg = 0

def Reg.tReadyInp : Bool := !r.fifoInp.full && r.fifoInpOwnerAXIS

def Reg.fifoInpWREN : Bool := i.axisInpPri.tValid && r.tReadyInp && !r.rstInProg

def Reg.tmemRDEN : Bool := (fifoRegSel g i.tmem).getLsbD 0 && i.tmem.we == 0 && !r.fifoInpOwnerAXIS

def Reg.tmemRDENOnce : Bool := !r.fifoInpRDENs && r.tmemRDEN g i

def Reg.fifoInpRDEN : Bool := r.tmemRDENOnce g i && !r.fifoInp.empty && !r.rstInProg

def Reg.fifoOutWREN : Bool :=
  i.tmem.we.extractLsb' 0 4 == 0xf && ((fifoRegSel g i.tmem).getLsbD 0 && !r.fifoOutOwnerAXIS &&
    !r.fifoOut.full && !r.rstInProg)

/-- `P_fifoOutREN`. -/
def Reg.fifoOutRDEN : Bool :=
  if r.rstInProg || !r.fifoOutOwnerAXIS then false
  else if !r.fifoOutValid then !r.fifoOut.empty
  else if i.tReady then !r.fifoOut.empty
  else false

/-- `P_axisOut`. -/
def Reg.axisOutPri : Axis 32 := ⟨r.fifoOutValid, r.fifoOut.empty, r.fifoOut.dO⟩

/-- The loop over the octets that are written, `off` being the first bit of the register. -/
def writeAux (off : ℕ) (aux : BitVec 128) : BitVec 128 :=
  (List.range 8).foldl (fun aux n =>
    let f := off + 8 * n
    if i.tmem.we.getLsbD n then
      putSlice aux f ((i.tmem.datw.extractLsb' (8 * n) 8 &&& ~~~ g.AUX_RO_M_G.extractLsb' f 8) |||
        (i.auxIn.extractLsb' f 8 &&& g.AUX_RO_M_G.extractLsb' f 8))
    else aux) aux

/-- The next value of `auxReg` outside reset. -/
def auxNext : BitVec 128 :=
  let aux := i.auxIn
  let aux := if (fifoRegSel g i.tmem).getLsbD 2 then writeAux g i 0 aux else aux
  if (fifoRegSel g i.tmem).getLsbD 3 then writeAux g i 64 aux else aux

/-- `P_RESET`. -/
def Reg.usrRstNext : BitVec 3 :=
  if r.usrRstSeq ≠ 0 then r.usrRstSeq + 1
  else if i.rst || r.fifoUsrRst then 1
  else r.usrRstSeq

/-- A write to octet `n` of the control and status register. -/
def csWrite (n : ℕ) : Bool := (fifoRegSel g i.tmem).getLsbD 1 && i.tmem.we.getLsbD n

def Reg.status : BitVec 24 :=
  BitVec.ofBool r.fifoUsrRst ++ 0#3 ++ BitVec.ofBool r.fifoInpIrqEna ++
    BitVec.ofBool r.fifoOutIrqEna ++ BitVec.ofBool r.fifoInpOwnerAXIS ++
    BitVec.ofBool r.fifoOutOwnerAXIS ++ r.wcntReg

/-- The part of `P_SEQ` outside reset; later assignments win. -/
def Reg.seq : Reg :=
  { r with
    fifoInpRDENs := r.tmemRDEN g i
    fifoOutValid := if !r.fifoOutValid || i.tReady then r.fifoOutRDEN i else r.fifoOutValid
    wcntCnt :=
      if r.fifoInpRDEN g i && !r.fifoInpWREN i then r.wcntCnt - 1
      else if !r.fifoInpRDEN g i && r.fifoInpWREN i then r.wcntCnt + 1
      else r.wcntCnt
    wcntReg :=
      if r.fifoInpWREN i && i.axisInpPri.tLast then r.wcntCnt + 1
      else if r.tmemRDENOnce g i then r.wcntReg - 1
      else r.wcntReg
    fifoOutOwnerAXIS :=
      if r.fifoOutValid && i.tReady && r.fifoOut.empty then false
      else if csWrite g i 2 && !r.fifoOutOwnerAXIS then i.tmem.datw.getLsbD 16
      else r.fifoOutOwnerAXIS
    fifoOutIrqEna := if csWrite g i 3 then i.tmem.datw.getLsbD 18 else r.fifoOutIrqEna
    fifoInpIrqEna := if csWrite g i 3 then i.tmem.datw.getLsbD 19 else r.fifoInpIrqEna
    auxReg := auxNext g i
    fifoRegSelDly := fifoRegSel g i.tmem
    statusReg := r.status }

/-- The part of `P_SEQ` in reset. -/
def Reg.reset : Reg :=
  { r with
    fifoInpRDENs := false
    wcntReg := 0
    wcntCnt := 0
    fifoOutOwnerAXIS := false
    fifoOutValid := false
    fifoInpIrqEna := false
    fifoOutIrqEna := false
    auxReg := g.AUX_INIT_G
    fifoRegSelDly := 0
    statusReg := 0 }

/-- One cycle: `P_RESET`, `P_SEQ` and the two FIFOs. -/
def Reg.next : Reg :=
  { (if r.aRst then r.reset g else r.seq g i) with
    usrRstSeq := r.usrRstNext i
    fifoUsrRst :=
      if i.rst then false else if csWrite g i 2 then i.tmem.datw.getLsbD 23 else r.fifoUsrRst
    fifoInp := r.fifoInp.clock r.aRst (r.fifoInpWREN i) i.axisInpPri.tData (r.fifoInpRDEN g i)
    fifoOut :=
      r.fifoOut.clock r.aRst (r.fifoOutWREN g i) (i.tmem.datw.setWidth 32) (r.fifoOutRDEN i) }

/-- `P_DATR_MUX`. -/
def Reg.tmemDATR : BitVec 64 :=
  match r.fifoRegSelDly with
  | 0b0001 => 0x6666aaaa#32 ++ r.fifoInp.dO
  | 0b0010 => (g.VERSION_G ++ DEPTH_KB_C ++ r.statusReg).setWidth 64
  | 0b0100 => r.auxReg.extractLsb' 0 64
  | 0b1000 => r.auxReg.extractLsb' 64 64
  | _ => 0xaffecafe5555aaaa

end

variable {g : Generics} {r : Reg} {i : Inp}

variable (g i) in
/-- Neither the reset input nor a write to the control register resets the FIFOs. -/
def NoReset : Prop := i.rst = false ∧ (csWrite g i 2 = true → i.tmem.datw.getLsbD 23 = false)

instance : Decidable (NoReset g i) := inferInstanceAs (Decidable (_ ∧ (_ → _)))

/-- The block is not in reset. -/
structure Running (r : Reg) : Prop where
  usrRstSeq : r.usrRstSeq = 0
  fifoUsrRst : r.fifoUsrRst = false

theorem Running.init : Running (Reg.init g) := ⟨rfl, rfl⟩

theorem Running.rstInProg (h : Running r) : r.rstInProg = false := by
  simp [Reg.rstInProg, h.usrRstSeq]

theorem Running.next_eq (h : Running r) (hi : NoReset g i) : r.next g i =
    { r.seq g i with
      fifoInp :=
        r.fifoInp.clock false (r.fifoInpWREN i) i.axisInpPri.tData (r.fifoInpRDEN g i)
      fifoOut := r.fifoOut.clock false (r.fifoOutWREN g i) (i.tmem.datw.setWidth 32)
        (r.fifoOutRDEN i) } := by
  have haRst : r.aRst = false := by simp [Reg.aRst, h.usrRstSeq]
  have hseq : r.usrRstNext i = r.usrRstSeq := by
    simp [Reg.usrRstNext, h.usrRstSeq, h.fifoUsrRst, hi.1]
  have husr : (if i.rst then false else if csWrite g i 2 then i.tmem.datw.getLsbD 23
      else r.fifoUsrRst) = r.fifoUsrRst := by
    rw [if_neg (by simp [hi.1]), h.fifoUsrRst]
    split_ifs with hwrite
    · exact hi.2 hwrite
    · rfl
  rw [Reg.next, haRst, hseq, husr]
  rfl

theorem Running.next (h : Running r) (hi : NoReset g i) : Running (r.next g i) := by
  rw [h.next_eq hi]
  exact ⟨h.usrRstSeq, h.fifoUsrRst⟩

variable (g) in
/-- The registers on the way through a reset, when the bus and the stream keep still. -/
def resetting (usrRstSeq : BitVec 3) (fifoOutValid : Bool) (fifoRegSelDly : BitVec 4)
    (statusReg : BitVec 24) (auxReg : BitVec 128) : Reg :=
  { Reg.init g with
    usrRstSeq := usrRstSeq
    fifoOutValid := fifoOutValid
    fifoRegSelDly := fifoRegSelDly
    statusReg := statusReg
    auxReg := auxReg }

theorem fifoRegSel_of_disabled {b : Tmem} (hb : b.ena = false) : fifoRegSel g b = 0 := by
  rw [fifoRegSel, if_neg (by simp [hb])]

theorem auxNext_of_disabled (hb : i.tmem.ena = false) : auxNext g i = i.auxIn := by
  simp [auxNext, fifoRegSel_of_disabled hb]

/-- One cycle of a reset; while `aRst` is high the registers get their values. -/
theorem resetting_next {usr : BitVec 3} {valid : Bool} {sel : BitVec 4} {status : BitVec 24}
    {aux : BitVec 128} (hr : r = resetting g usr valid sel status aux) (hb : i.tmem.ena = false)
    (hstream : i.axisInpPri.tValid = false) :
    (4 < usr → r.next g i = resetting g (r.usrRstNext i) false 0 0 g.AUX_INIT_G) ∧
      ∃ valid' sel' status' aux',
        r.next g i = resetting g (r.usrRstNext i) valid' sel' status' aux' ∧
          (valid = false → valid' = false) ∧ (aux' = i.auxIn ∨ aux' = g.AUX_INIT_G) := by
  have hsel : fifoRegSel g i.tmem = 0 := fifoRegSel_of_disabled hb
  have haux : auxNext g i = i.auxIn := auxNext_of_disabled hb
  have hcs (n : ℕ) : csWrite g i n = false := by simp [csWrite, hsel]
  have howner : r.fifoOutOwnerAXIS = false := by
    rw [hr]
    rfl
  have hrden : r.fifoOutRDEN i = false := by simp [Reg.fifoOutRDEN, howner]
  have hin : (4 < usr → r.aRst = true) ∧ (¬ 4 < usr → r.aRst = false) := by
    rw [hr]
    exact ⟨fun h => decide_eq_true h, fun h => decide_eq_false h⟩
  have hreset (h : 4 < usr) :
      r.next g i = resetting g (r.usrRstNext i) false 0 0 g.AUX_INIT_G := by
    rw [Reg.next, hin.1 h, hcs]
    subst hr
    simp [resetting, Reg.reset, Reg.init, FifoSync.clock, FifoSync.init]
  refine ⟨hreset, ?_⟩
  by_cases h : 4 < usr
  · exact ⟨false, 0, 0, g.AUX_INIT_G, hreset h, fun _ => rfl, Or.inr rfl⟩
  · refine ⟨if !r.fifoOutValid || i.tReady then false else r.fifoOutValid, 0, r.status, i.auxIn, ?_,
      ?_, Or.inl rfl⟩
    · have htmem : r.tmemRDEN g i = false := by simp [Reg.tmemRDEN, hsel]
      have hwren : r.fifoInpWREN i = false := by simp [Reg.fifoInpWREN, hstream]
      have hinp : r.fifoInpRDEN g i = false := by simp [Reg.fifoInpRDEN, Reg.tmemRDENOnce, htmem]
      have hout : r.fifoOutWREN g i = false := by simp [Reg.fifoOutWREN, hsel]
      rw [Reg.next, hin.2 h, hcs]
      simp only [Reg.seq, hrden, htmem, hwren, hinp, hout, hcs, hsel, haux, Reg.tmemRDENOnce]
      subst hr
      simp [resetting, Reg.init, FifoSync.clock, FifoSync.init]
    · rintro rfl
      rw [hr]
      rfl

theorem fifoRegSel_eq_of_getLsbD {b : Tmem} {n : ℕ} (hn : n < 4)
    (h : (fifoRegSel g b).getLsbD n = true) : fifoRegSel g b = 1 <<< n := by
  unfold fifoRegSel at h ⊢
  split_ifs at h ⊢ with hcs
  · split at h <;> interval_cases n <;> simp_all
  · simp at h

/-- One octet of the register; a bit that is read-only keeps what is fed back. -/
theorem getLsbD_writeOctet {off n k : ℕ} (hk : k < 128) (aux : BitVec 128) :
    (if i.tmem.we.getLsbD n then
      putSlice aux (off + 8 * n)
        ((i.tmem.datw.extractLsb' (8 * n) 8 &&& ~~~ g.AUX_RO_M_G.extractLsb' (off + 8 * n) 8) |||
          (i.auxIn.extractLsb' (off + 8 * n) 8 &&& g.AUX_RO_M_G.extractLsb' (off + 8 * n) 8))
    else aux).getLsbD k =
      if off + 8 * n ≤ k ∧ k < off + 8 * n + 8 ∧ i.tmem.we.getLsbD n = true then
        if g.AUX_RO_M_G.getLsbD k then i.auxIn.getLsbD k else i.tmem.datw.getLsbD (k - off)
      else aux.getLsbD k := by
  by_cases hwe : i.tmem.we.getLsbD n = true
  · rw [if_pos hwe, getLsbD_putSlice _ _ _ hk]
    by_cases hin : off + 8 * n ≤ k ∧ k < off + 8 * n + 8
    · have hlt : k - (off + 8 * n) < 8 := by omega
      have hadd : off + 8 * n + (k - (off + 8 * n)) = k := by omega
      have hsub : 8 * n + (k - (off + 8 * n)) = k - off := by omega
      rw [if_pos hin, if_pos ⟨hin.1, hin.2, hwe⟩]
      by_cases hro : g.AUX_RO_M_G.getLsbD k = true
      · simp [hlt, hadd, hro]
      · simp [hlt, hadd, hsub, hro]
    · rw [if_neg hin, if_neg (fun h => hin ⟨h.1, h.2.1⟩)]
  · rw [if_neg hwe, if_neg (fun h => hwe h.2.2)]

theorem getLsbD_writeAux {off k : ℕ} (hk : k < 128) (aux : BitVec 128) :
    (writeAux g i off aux).getLsbD k =
      if off ≤ k ∧ k < off + 64 ∧ i.tmem.we.getLsbD ((k - off) / 8) = true then
        if g.AUX_RO_M_G.getLsbD k then i.auxIn.getLsbD k else i.tmem.datw.getLsbD (k - off)
      else aux.getLsbD k := by
  have hpart : ∀ n, ((List.range n).foldl (fun aux n =>
      let f := off + 8 * n
      if i.tmem.we.getLsbD n then
        putSlice aux f ((i.tmem.datw.extractLsb' (8 * n) 8 &&& ~~~ g.AUX_RO_M_G.extractLsb' f 8) |||
          (i.auxIn.extractLsb' f 8 &&& g.AUX_RO_M_G.extractLsb' f 8))
      else aux) aux).getLsbD k =
      if off ≤ k ∧ k < off + 8 * n ∧ i.tmem.we.getLsbD ((k - off) / 8) = true then
        if g.AUX_RO_M_G.getLsbD k then i.auxIn.getLsbD k else i.tmem.datw.getLsbD (k - off)
      else aux.getLsbD k := by
    intro n
    induction n with
    | zero => rw [if_neg (by omega)]; rfl
    | succ n ih =>
      rw [List.range_succ, List.foldl_append, List.foldl_cons, List.foldl_nil]
      rw [getLsbD_writeOctet hk, ih]
      by_cases hin : off + 8 * n ≤ k ∧ k < off + 8 * n + 8
      · have hdiv : (k - off) / 8 = n := by omega
        have hold : ¬ (off ≤ k ∧ k < off + 8 * n ∧ i.tmem.we.getLsbD n = true) := by omega
        rw [hdiv, if_neg hold]
        congr 1
        apply propext
        constructor <;> rintro ⟨_, _, hwe⟩ <;> exact ⟨by omega, by omega, hwe⟩
      · rw [if_neg (fun h => hin ⟨h.1, h.2.1⟩)]
        congr 1
        apply propext
        constructor <;> rintro ⟨_, _, hwe⟩ <;> exact ⟨by omega, by omega, hwe⟩
  exact hpart 8

end Axis2TmemFifo

end XvcSupport
