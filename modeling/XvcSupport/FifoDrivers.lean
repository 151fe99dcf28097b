import XvcSupport.Registers
import XvcSupport.Driver

namespace XvcSupport

abbrev Xfer (σ α : Type) := Run (JtagDriver.Err × Transfer σ) α

open RegisterDriver

namespace FifoDriver

variable {σ : Type} (regs : Registers σ)

/-- The loop over the header; `ord` is the order of the octets in a word. -/
def readHeader (ord : BitVec 32 → BitVec 32) (idx : ℕ) (hsize got : BitVec 32) (fuel : ℕ)
    (t : Transfer σ) : Xfer σ (BitVec 32 × BitVec 32 × Transfer σ) :=
  loop (fun (i, _, _) => i < hsize)
    (fun (i, got, t) =>
      let (w, t) := i32 regs idx t
      if got < 4 then Run.threw (.protoErr "Didn't receive enough data for header", t)
      else
        let hdbuf := memcpy t.hdbuf i.toNat (memOf (unpackLE 4 (ord w))) 0 4
        Run.returned (i + 4, got - 4, { t with hdbuf := hdbuf }))
    fuel (0, got, t)

def readWords (ord : BitVec 32 → BitVec 32) (idx : ℕ) (minw : BitVec 32) (fuel : ℕ)
    (t : Transfer σ) : Xfer σ (BitVec 32 × Transfer σ) :=
  loop (fun (i, _) => i < 4 * minw)
    (fun (i, t) =>
      let (w, t) := i32 regs idx t
      Run.returned (i + 4, { t with rxb := memcpy t.rxb i.toNat (memOf (unpackLE 4 (ord w))) 0 4 }))
    fuel (0, t)

/-- The last word, of which `rem` octets are wanted. -/
def readRest (ord : BitVec 32 → BitVec 32) (idx : ℕ) (rem i : BitVec 32) (t : Transfer σ) :
    BitVec 32 × Transfer σ :=
  if rem ≠ 0 then
    let (w, t) := i32 regs idx t
    let rxb := memcpy t.rxb i.toNat (memOf (unpackLE 4 (ord w))) 0 rem.toNat
    (i + 4, { t with rxb := rxb })
  else (i, t)

def discard (idx : ℕ) (got i : BitVec 32) (fuel : ℕ) (t : Transfer σ) :
    Xfer σ (BitVec 32 × Transfer σ) :=
  loop (fun (i, _) => i < got) (fun (i, t) => Run.returned (i + 4, (i32 regs idx t).2)) fuel (i, t)

/-- The return of `xfer`, with every 256th reply dropped for tests. -/
def finish (drEn : Bool) (min : BitVec 32) (t : Transfer σ) : Xfer σ (ℤ × Transfer σ) :=
  if drEn then
    let t := { t with drop := t.drop + 1 }
    if t.drop &&& 0xff = 0 then Run.threw (.timeoutErr, t) else Run.returned (min.toInt, t)
  else Run.returned (min.toInt, t)

/-- The part of `xfer` and `xferFifo` behind the number `got` of octets received. -/
def receive (ord : BitVec 32 → BitVec 32) (idx : ℕ) (drEn : Bool) (hsize size got : BitVec 32)
    (fuel : ℕ) (t : Transfer σ) : Xfer σ (ℤ × Transfer σ) := do
  if got = 0 then Run.threw (.protoErr "Didn't receive enough data for header", t)
  else
    let (_, got, t) ← readHeader regs ord idx hsize got fuel t
    let min := if size < got then size else got
    let (i, t) ← readWords regs ord idx (min / 4) fuel t
    let (i, t) := readRest regs ord idx (min - i) i t
    let (_, t) ← discard regs idx got i fuel t
    finish drEn min t

def writeWords (ord : BitVec 32 → BitVec 32) (idx : ℕ) (txb : Mem) (txWords : BitVec 32)
    (fuel : ℕ) (t : Transfer σ) : Xfer σ (BitVec 32 × Transfer σ) :=
  loop (fun (i, _) => i < txWords)
    (fun (i, t) =>
      let w := packLE 32 (slice txb (4 * i).toNat 4)
      Run.returned (i + 1, o32 regs idx (ord w) t))
    fuel (0, t)

end FifoDriver

open FifoDriver

namespace JtagDriverZynqFifo

def TX_DAT_IDX : ℕ := 4
def TX_END_IDX : ℕ := 5
def RX_STA_IDX : ℕ := 8
def RX_DAT_IDX : ℕ := 12
def RX_CNT_IDX : ℕ := 13
def RX_RDY_SHF : ℕ := 5

def xfer {σ : Type} (regs : Registers σ) (drEn : Bool) (txb : Mem)
    (txBytes hsize size : BitVec 32) (fuel : ℕ) (t : Transfer σ) : Xfer σ (ℤ × Transfer σ) := do
  let txWords := (txBytes + 3) / 4
  let lastBytes := txBytes - 4 * (txWords - 1)
  if hsize % 4 ≠ 0 then
    Run.threw (.runtimeErr
      "zynq FIFO only supports word-lengths that are a multiple of 4", t)
  else
    let (_, t) ← writeWords regs id TX_DAT_IDX txb txWords fuel t
    let t := o32 regs TX_END_IDX lastBytes t
    let (_, t) ← poll regs RX_STA_IDX (fun w => w &&& (1 : BitVec 32) <<< RX_RDY_SHF ≠ 0) fuel t
    let t := o32 regs RX_STA_IDX (1 <<< RX_RDY_SHF) t
    let (got, t) := i32 regs RX_CNT_IDX t
    receive regs id RX_DAT_IDX drEn hsize size got fuel t

end JtagDriverZynqFifo

namespace JtagDriverTmemFifo

def FIFO_DAT_IDX : ℕ := 0
def FIFO_CSR_IDX : ℕ := 2
def FIFO_CSR_EOFO : BitVec 32 := 1 <<< 16
def FIFO_CSR_EMPI : BitVec 32 := 1 <<< 17
def FIFO_CSR_NWRDS : ℕ := 0
def FIFO_CSR_NWRDM : BitVec 32 := 0xffff
def wrdSiz : BitVec 32 := 4

/-- `__builtin_bswap32`. -/
def bswap32 (w : BitVec 32) : BitVec 32 := packLE 32 (unpackLE 4 w).reverse

def xferFifo {σ : Type} (regs : Registers σ) (drEn : Bool) (txb : Mem)
    (txBytes hsize size : BitVec 32) (fuel : ℕ) (t : Transfer σ) : Xfer σ (ℤ × Transfer σ) := do
  let txWords := (txBytes + 3) / 4
  let lastBytes := txBytes - 4 * (txWords - 1)
  if hsize % 4 ≠ 0 then
    Run.threw (.runtimeErr
      "AXIS2TMEM FIFO only supports word-lengths that are a multiple of 4", t)
  else
    let txWords := if lastBytes ≠ 0 then txWords - 1 else txWords
    let (i, t) ← writeWords regs bswap32 FIFO_DAT_IDX txb txWords fuel t
    let t :=
      if lastBytes ≠ 0 then
        let w := packLE 32 (slice txb (4 * i).toNat lastBytes.toNat)
        o32 regs FIFO_DAT_IDX (bswap32 w) t
      else t
    let (csr, t) := i32 regs FIFO_CSR_IDX t
    let t := o32 regs FIFO_CSR_IDX (csr ||| FIFO_CSR_EOFO) t
    let (csr, t) ← poll regs FIFO_CSR_IDX (fun w => w &&& FIFO_CSR_EMPI = 0) fuel t
    let got := ((csr >>> FIFO_CSR_NWRDS) &&& FIFO_CSR_NWRDM) * wrdSiz
    receive regs bswap32 FIFO_DAT_IDX drEn hsize size got fuel t

end JtagDriverTmemFifo

end XvcSupport
