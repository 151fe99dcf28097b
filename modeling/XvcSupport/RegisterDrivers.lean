import XvcSupport.Registers
import XvcSupport.Driver

namespace XvcSupport

namespace JtagDriver

def versMask : Header := 0xc0000000
def lenMask : Header := 0x000fffff
def unknownPeriod : ℕ := 0

def getVrs (x : Header) : Header := x &&& versMask

def getLen (x : Header) : Except Err ℕ :=
  if getCmd x ≠ cmdS then .error (.protoErr "Cannot extract length from non-shift command header")
  else .ok (((x &&& lenMask) >>> lenShift).toNat + 1)

/-- `encPerNs`; `code` is the code of a known period, which is computed in floating point. -/
def encPerNs (code : ℕ → Header) (perNs : ℕ) : Header :=
  if perNs = unknownPeriod then 0 else code perNs

def mkQueryReply (code : ℕ → Header) (protoVers : Header) (wordSize memDepth periodNs : ℕ) :
    Except Err Header :=
  if protoVers ≠ pvers then .error (.runtimeErr "mkQueryReply: unsupported protocol version")
  else if wordSize > 16 then .error (.runtimeErr "mkQueryReply: unsupported word size")
  else if memDepth ≥ 1 <<< 16 then .error (.runtimeErr "mkQueryReply: unsupported memory depth")
  else if periodNs ≥ 1 <<< 8 then
    .error (.runtimeErr "mkQueryReply: unsupported TCK clock period")
  else .ok (protoVers ||| cmdQ ||| ((encPerNs code periodNs &&& 0xff) <<< 20) |||
    ((BitVec.ofNat 32 memDepth &&& 0xffff) <<< 4) |||
    ((BitVec.ofNat 32 (wordSize - 1) &&& 0xf) <<< 0))

end JtagDriver

open JtagDriver

namespace RegisterDriver

variable {σ : Type} (regs : Registers σ)

/-- How a run ends without a result: it throws, or it reads behind the message. -/
inductive Fault
  | thrown (e : Err)
  | overrun
deriving DecidableEq, Repr

/-- `getw32` of the octets at `p`. -/
def getw32 (msg : List Byte) (p : ℕ) : Run Fault (BitVec 32) :=
  if p + 4 ≤ msg.length then Run.returned (packLE 32 ((msg.drop p).take 4))
  else Run.threw .overrun

def lift {α : Type} : Except Err α → Run Fault α
  | .ok a => Run.returned a
  | .error e => Run.threw (.thrown e)

/-- The variables of the loop over words; `pi` and `po` are offsets. -/
structure Shifting (σ : Type) where
  nbits : ℕ
  l : ℕ
  lb : ℕ
  pi : ℕ
  po : ℕ
  t : Transfer σ

/-- How a driver shifts the words `tms` and `tdi`, of which `l` bits are wanted, when `nbits`
bits are left. -/
abbrev Shift (σ : Type) :=
  (tms tdi : BitVec 32) → (nbits l : ℕ) → Transfer σ → Run Fault (BitVec 32 × Transfer σ)

def shiftWord (shift : Shift σ) (msg : List Byte) (a : Shifting σ) : Run Fault (Shifting σ) := do
  let tms ← getw32 msg a.pi
  let tdi ← getw32 msg (a.pi + 4)
  let l := if a.nbits < 8 * 4 then a.nbits else a.l
  let lb := if a.nbits < 8 * 4 then (l + 7) / 8 else a.lb
  let (w, t) ← shift tms tdi a.nbits l a.t
  let t := { t with rxb := memcpy t.rxb a.po (memOf (unpackLE 4 w)) 0 (min lb 4) }
  return { nbits := a.nbits - l, l := l, lb := lb, pi := a.pi + 8, po := a.po + lb, t := t }

/-- What `xfer` and `xferSdes` have in common; `start` comes before the loop. -/
def xfer (start : Transfer σ → Transfer σ) (shift : Shift σ) (wordSize : ℕ)
    (code : ℕ → Header) (msg : List Byte) (txBytes hsize size fuel : ℕ) (t : Transfer σ) :
    Run Fault (ℕ × Transfer σ) := do
  let hdr ← getw32 msg 0
  if getVrs hdr ≠ pvers then
    Run.threw (.thrown (.runtimeErr "AxiDbgBridgeIP driver: xfer() found unexpected version"))
  else if hsize ≠ 4 then
    Run.threw (.thrown (.runtimeErr "AxiDbgBridgeIP driver: xfer() found unexpected header size"))
  else if getCmd hdr = cmdQ then
    let reply ← lift (mkQueryReply code pvers 4 0 unknownPeriod)
    return (4, { t with hdbuf := setHdr t.hdbuf wordSize reply })
  else if getCmd hdr ≠ cmdS then
    Run.threw (.thrown (.runtimeErr "AxiDbgBridgeIP driver: xfer() found unexpected command"))
  else
    let nbits ← lift (getLen hdr)
    let nbytes := (nbits + 7) / 8
    let nwords := (nbytes + hsize - 1) / hsize
    if txBytes < nwords * 2 * hsize then
      Run.threw (.thrown (.runtimeErr "AXI-DebugBridge IP: not enough input data"))
    else if size < nbytes then
      Run.threw (.thrown (.runtimeErr "AXI-DebugBridge IP: output buffer too small"))
    else
      let t := start { t with hdbuf := setHdr t.hdbuf wordSize hdr }
      let a ← loop (fun a => a.nbits > 0) (shiftWord shift msg) fuel
        { nbits := nbits, l := 8 * 4, lb := 4, pi := hsize, po := 0, t := t }
      return (nbytes, a.t)

end RegisterDriver

open RegisterDriver

namespace JtagDriverZynqAxiDbgBridgeIP

def LENGTH_IDX : ℕ := 0
def TMSVEC_IDX : ℕ := 1
def TDIVEC_IDX : ℕ := 2
def TDOVEC_IDX : ℕ := 3
def CSR_IDX : ℕ := 4
def CSR_RUN : BitVec 32 := 0x00000001

variable {σ : Type} (regs : Registers σ)

/-- One round of the loop in `xfer`. -/
def shift (fuel : ℕ) : Shift σ := fun tms tdi nbits l t => do
  let t := o32 regs TMSVEC_IDX tms t
  let t := o32 regs TDIVEC_IDX tdi t
  let t := if nbits < 8 * 4 then o32 regs LENGTH_IDX (BitVec.ofNat 32 l) t else t
  let (w, t) := i32 regs CSR_IDX t
  let t := o32 regs CSR_IDX (w ||| CSR_RUN) t
  let (_, t) ← poll regs CSR_IDX (fun w => w &&& CSR_RUN = 0) fuel t
  return i32 regs TDOVEC_IDX t

def xfer (wordSize : ℕ) (code : ℕ → Header) (msg : List Byte) (txBytes hsize size fuel : ℕ)
    (t : Transfer σ) : Run Fault (ℕ × Transfer σ) :=
  RegisterDriver.xfer (o32 regs LENGTH_IDX (BitVec.ofNat 32 (8 * 4))) (shift regs fuel) wordSize
    code msg txBytes hsize size fuel t

end JtagDriverZynqAxiDbgBridgeIP

namespace JtagDriverTmemFifo

def SDES_TMS_IDX : ℕ := 4
def SDES_TDI_IDX : ℕ := 5
def SDES_CSR_IDX : ℕ := 6
def SDES_TDO_IDX : ℕ := 7
def SDES_CSR_RUN : BitVec 32 := 0x00000100
def SDES_CSR_BSY : BitVec 32 := 0x00000200
def SDES_CSR_LENS : ℕ := 0
def SDES_CSR_LRMSK : BitVec 32 := 0x00000fff
def SDES_CSR_BBMSK : BitVec 32 := 0x000f0000
def SDES_CSR_BB_TCK : BitVec 32 := 0x00010000
def SDES_CSR_BB_TMS : BitVec 32 := 0x00020000
def SDES_CSR_BB_TDI : BitVec 32 := 0x00040000
def SDES_CSR_BB_TDO : BitVec 32 := 0x00080000

variable {σ ε : Type} (regs : Registers σ)

def xfer32sdes (tms tdi : BitVec 32) (nbits fuel : ℕ) (t : Transfer σ) :
    Run ε (BitVec 32 × Transfer σ) := do
  let (csr, t) := i32 regs SDES_CSR_IDX t
  let csr := (csr &&& ~~~SDES_CSR_LRMSK) ||| (BitVec.ofNat 32 (nbits - 1) <<< SDES_CSR_LENS)
  let t := o32 regs SDES_TMS_IDX tms t
  let t := o32 regs SDES_TDI_IDX tdi t
  let t := o32 regs SDES_CSR_IDX (csr ||| SDES_CSR_RUN) t
  let (_, t) ← poll regs SDES_CSR_IDX (fun w => w &&& SDES_CSR_BSY = 0) fuel t
  let (tdo, t) := i32 regs SDES_TDO_IDX t
  return (tdo >>> (32 - nbits), t)

/-- The value of CSR for one bit of TMS and TDI. -/
def pins (csr tms tdi m : BitVec 32) : BitVec 32 :=
  let csr := if tms &&& m ≠ 0 then csr ||| SDES_CSR_BB_TMS else csr &&& ~~~SDES_CSR_BB_TMS
  if tdi &&& m ≠ 0 then csr ||| SDES_CSR_BB_TDI else csr &&& ~~~SDES_CSR_BB_TDI

/-- The loop of `xfer32bb`, for `n` more bits. -/
def bits32bb (logBscn : Bool) (tms tdi : BitVec 32) :
    ℕ → (m csr tdo : BitVec 32) → Transfer σ → BitVec 32 × Transfer σ
  | 0, _, _, tdo, t => (tdo, t)
  | n + 1, m, csr, tdo, t =>
    let csr := pins csr tms tdi m
    let t := o32 regs SDES_CSR_IDX csr t
    let (csrrb, t) := i32 regs SDES_CSR_IDX t
    let tdo := if csrrb &&& SDES_CSR_BB_TDO ≠ 0 then tdo ||| m else tdo
    let csr := csr ||| SDES_CSR_BB_TCK
    let t := o32 regs SDES_CSR_IDX csr t
    -- the value that is logged is not used otherwise
    let t := if logBscn then (i32 regs SDES_CSR_IDX t).2 else t
    bits32bb logBscn tms tdi n (m <<< 1) (csr &&& ~~~SDES_CSR_BB_TCK) tdo t

def xfer32bb (logBscn : Bool) (tms tdi : BitVec 32) (nbits : ℕ) (t : Transfer σ) :
    BitVec 32 × Transfer σ :=
  let (csr, t) := i32 regs SDES_CSR_IDX t
  bits32bb regs logBscn tms tdi nbits 1 (csr &&& ~~~SDES_CSR_BBMSK) 0 t

/-- One round of the loop in `xferSdes`. -/
def shift (bitBang logBscn : Bool) (fuel : ℕ) : Shift σ := fun tms tdi _ l t =>
  if bitBang then return xfer32bb regs logBscn tms tdi l t else xfer32sdes regs tms tdi l fuel t

def xferSdes (bitBang logBscn : Bool) (wordSize : ℕ) (code : ℕ → Header) (msg : List Byte)
    (txBytes hsize size fuel : ℕ) (t : Transfer σ) : Run Fault (ℕ × Transfer σ) :=
  RegisterDriver.xfer id (shift regs bitBang logBscn fuel) wordSize code msg txBytes hsize size
    fuel t

end JtagDriverTmemFifo

end XvcSupport
