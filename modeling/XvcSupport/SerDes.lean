import XvcSupport.Firmware

/-!
# The serializer

JtagSerDesCore shifts one pair of TMS and TDI words after the other to the JTAG pins
and collects TDO.  While the last bit of a word is on the pins it takes the next pair if
there is one, so that TCK runs on without a gap; the word it has collected is offered
one TCK half-period later.
-/

namespace XvcSupport.JtagSerDesCore

open AxisToJtag

inductive StateType
  | idle
  | shift
  | wai
deriving DecidableEq, Repr

variable {W : ℕ}

/-- The register record; the strobes that accompany the edges of TCK are left out. -/
structure Reg (W : ℕ) where
  cnt : ℤ
  div : ℕ
  tms : BitVec W
  tdi : BitVec W
  tdo : BitVec (W + 1)
  tck : Bool
  lastBit : Bool
  oValid : Bool
  iReady : Bool
  state : StateType

def Reg.init (W : ℕ) : Reg W where
  cnt := -1
  div := 0
  tms := 0
  tdi := 0
  tdo := 0
  tck := false
  lastBit := false
  oValid := false
  iReady := true
  state := .idle

/-- The inputs of a clock cycle. -/
structure In (W : ℕ) where
  numBits : ℕ
  dataInTms : BitVec W
  dataInTdi : BitVec W
  dataInValid : Bool
  dataOutReady : Bool
  tdo : Bool

def Reg.dataOut (r : Reg W) : BitVec W := r.tdo.setWidth W

def Reg.pins (r : Reg W) : Bool × Bool := (r.tms.getLsbD 0, r.tdi.getLsbD 0)

/-- `SHIFT_S` when the time has come to raise TCK. -/
def Reg.raise (clkDiv2 : ℕ) (r : Reg W) (i : In W) : Reg W :=
  let v := { r with
    iReady := false
    oValid := false
    tdo := BitVec.cons i.tdo (r.tdo.extractLsb' 1 W) }
  if r.lastBit then
    -- the last TDO bit of the word; with more words in the pipeline shifting goes on
    let v := { v with lastBit := false, oValid := true }
    if 0 ≤ r.cnt then
      if i.dataOutReady then { v with tck := true, div := clkDiv2 - 1 }
      else { v with state := .wai }
    else if i.dataOutReady then { v with iReady := true, state := .idle }
    else { v with state := .wai }
  else { v with tck := true, div := clkDiv2 - 1 }

/-- `SHIFT_S` when the time has come to lower TCK. -/
def Reg.lower (clkDiv2 : ℕ) (r : Reg W) (i : In W) : Reg W :=
  let v := { r with
    iReady := false
    oValid := false
    tms := r.tms >>> 1
    tdi := r.tdi >>> 1
    cnt := r.cnt - 1
    tck := false
    div := clkDiv2 - 1 }
  if r.cnt = 0 then
    -- the next word is taken over in passing
    if i.dataInValid then
      { v with
        tms := i.dataInTms
        tdi := i.dataInTdi
        cnt := i.numBits
        iReady := true
        lastBit := true }
    else { v with lastBit := true }
  else v

/-- `P_COMB`. -/
def Reg.next (clkDiv2 : ℕ) (r : Reg W) (i : In W) : Reg W :=
  match r.state with
  | .idle =>
    if i.dataInValid && r.iReady then
      { r with
        oValid := false
        tms := i.dataInTms
        tdi := i.dataInTdi
        iReady := false
        cnt := i.numBits
        div := clkDiv2 - 1
        state := .shift }
    else { r with oValid := false }
  | .shift =>
    if r.div = 0 then if r.tck then r.lower clkDiv2 i else r.raise clkDiv2 i
    else { r with iReady := false, oValid := false, div := r.div - 1 }
  | .wai =>
    if i.dataOutReady then
      if 0 ≤ r.cnt then
        { r with oValid := false, tck := true, div := clkDiv2 - 1, state := .shift }
      else { r with oValid := false, iReady := true, state := .idle }
    else r

/-- The edges of TCK so far, with the pins just before each. -/
def Reg.clock (r r' : Reg W) (hist : List Edge) : List Edge :=
  if r'.tck = r.tck then hist else hist ++ [⟨r'.tck, r.pins.1, r.pins.2⟩]

end XvcSupport.JtagSerDesCore
