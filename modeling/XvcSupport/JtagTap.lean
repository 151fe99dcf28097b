import XvcSupport.ShiftRegisters

namespace XvcSupport

namespace JtagTapFsm

def testLogicResetC : ℕ := 0
def runTestIdleC : ℕ := 1
def scanDRC : ℕ := 2
def scanIRC : ℕ := 3

def selectScanC : ℕ := 0
def captureC : ℕ := 1
def shiftC : ℕ := 2
def exit1C : ℕ := 3
def pauseC : ℕ := 4
def exit2C : ℕ := 5
def updateC : ℕ := 6

structure Reg where
  primaryState : BitVec 4
  scanSubState : BitVec 7
deriving DecidableEq, Repr

def nextPrimaryState (s : ℕ) : BitVec 4 := 1 <<< s

def nextScanState (s : ℕ) : BitVec 7 := 1 <<< s

/-- `nextScanState` without an argument. -/
def noScanState : BitVec 7 := 0

def Reg.init : Reg where
  primaryState := nextPrimaryState testLogicResetC
  scanSubState := noScanState

/-- `P_COMB`; the last two branches are reported as failures. -/
def Reg.next (r : Reg) (tms : Bool) : Reg :=
  if r.primaryState.getLsbD testLogicResetC then
    if tms then r else { r with primaryState := nextPrimaryState runTestIdleC }
  else if r.primaryState.getLsbD runTestIdleC then
    if tms then ⟨nextPrimaryState scanDRC, nextScanState selectScanC⟩ else r
  else if r.primaryState.getLsbD scanDRC || r.primaryState.getLsbD scanIRC then
    if r.scanSubState.getLsbD selectScanC then
      if tms then
        if r.primaryState.getLsbD scanDRC then
          { r with primaryState := nextPrimaryState scanIRC }
        else ⟨nextPrimaryState testLogicResetC, noScanState⟩
      else { r with scanSubState := nextScanState captureC }
    else if r.scanSubState.getLsbD captureC then
      { r with scanSubState := if tms then nextScanState exit1C else nextScanState shiftC }
    else if r.scanSubState.getLsbD shiftC then
      if tms then { r with scanSubState := nextScanState exit1C } else r
    else if r.scanSubState.getLsbD exit1C then
      { r with scanSubState := if tms then nextScanState updateC else nextScanState pauseC }
    else if r.scanSubState.getLsbD pauseC then
      if tms then { r with scanSubState := nextScanState exit2C } else r
    else if r.scanSubState.getLsbD exit2C then
      { r with scanSubState := if tms then nextScanState updateC else nextScanState shiftC }
    else if r.scanSubState.getLsbD updateC then
      if tms then ⟨nextPrimaryState scanDRC, nextScanState selectScanC⟩
      else ⟨nextPrimaryState runTestIdleC, noScanState⟩
    else ⟨nextPrimaryState testLogicResetC, noScanState⟩
  else ⟨nextPrimaryState testLogicResetC, noScanState⟩

def Reg.testLogicReset (r : Reg) : Bool := r.primaryState.getLsbD testLogicResetC
def Reg.scanDR (r : Reg) : Bool := r.primaryState.getLsbD scanDRC
def Reg.scanIR (r : Reg) : Bool := r.primaryState.getLsbD scanIRC
def Reg.capture (r : Reg) : Bool := r.scanSubState.getLsbD captureC
def Reg.shift (r : Reg) : Bool := r.scanSubState.getLsbD shiftC
def Reg.update (r : Reg) : Bool := r.scanSubState.getLsbD updateC

/-- The output `nextStateTLR`. -/
def Reg.nextStateTLR (r : Reg) (tms : Bool) : Bool := (r.next tms).testLogicReset

/-- The registers that a scan can be for. -/
inductive Scan
  | dr
  | ir
deriving DecidableEq, Repr

inductive SubState
  | select
  | capture
  | shift
  | exit1
  | pause
  | exit2
  | update
deriving DecidableEq, Repr

inductive TapState
  | testLogicReset
  | runTestIdle
  | scan (reg : Scan) (sub : SubState)
deriving DecidableEq, Repr

/-- The state diagram of the TAP controller. -/
def TapState.next : TapState → Bool → TapState
  | .testLogicReset, tms => if tms then .testLogicReset else .runTestIdle
  | .runTestIdle, tms => if tms then .scan .dr .select else .runTestIdle
  | .scan .dr .select, tms => if tms then .scan .ir .select else .scan .dr .capture
  | .scan .ir .select, tms => if tms then .testLogicReset else .scan .ir .capture
  | .scan reg .capture, tms => .scan reg (if tms then .exit1 else .shift)
  | .scan reg .shift, tms => .scan reg (if tms then .exit1 else .shift)
  | .scan reg .exit1, tms => .scan reg (if tms then .update else .pause)
  | .scan reg .pause, tms => .scan reg (if tms then .exit2 else .pause)
  | .scan reg .exit2, tms => .scan reg (if tms then .update else .shift)
  | .scan _ .update, tms => if tms then .scan .dr .select else .runTestIdle

def SubState.code : SubState → ℕ
  | .select => selectScanC
  | .capture => captureC
  | .shift => shiftC
  | .exit1 => exit1C
  | .pause => pauseC
  | .exit2 => exit2C
  | .update => updateC

/-- The one-hot vectors of a state. -/
def TapState.encode : TapState → Reg
  | .testLogicReset => ⟨nextPrimaryState testLogicResetC, noScanState⟩
  | .runTestIdle => ⟨nextPrimaryState runTestIdleC, noScanState⟩
  | .scan .dr sub => ⟨nextPrimaryState scanDRC, nextScanState sub.code⟩
  | .scan .ir sub => ⟨nextPrimaryState scanIRC, nextScanState sub.code⟩

/-- The one-hot vectors follow the state diagram, and never reach a failure. -/
theorem encode_next (s : TapState) (tms : Bool) : s.encode.next tms = (s.next tms).encode := by
  cases s with
  | testLogicReset => cases tms <;> rfl
  | runTestIdle => cases tms <;> rfl
  | scan reg sub => cases reg <;> cases sub <;> cases tms <;> rfl

theorem encode_outputs (s : TapState) :
    s.encode.testLogicReset = decide (s = .testLogicReset) ∧
    (s.encode.capture && s.encode.scanIR) = decide (s = .scan .ir .capture) ∧
    (s.encode.shift && s.encode.scanIR) = decide (s = .scan .ir .shift) ∧
    (s.encode.update && s.encode.scanIR) = decide (s = .scan .ir .update) ∧
    (s.encode.capture && s.encode.scanDR) = decide (s = .scan .dr .capture) ∧
    (s.encode.shift && s.encode.scanDR) = decide (s = .scan .dr .shift) ∧
    (s.encode.update && s.encode.scanDR) = decide (s = .scan .dr .update) := by
  cases s with
  | testLogicReset => decide
  | runTestIdle => decide
  | scan reg sub => cases reg <;> cases sub <;> decide

def TapState.inScan (reg : Scan) : TapState → Bool
  | .scan reg' sub => reg' = reg && sub ≠ .select && sub ≠ .capture
  | _ => false

theorem inScan_iff {reg : Scan} {t : TapState} :
    t.inScan reg = true ↔ ∃ sub, t = .scan reg sub ∧ sub ≠ .select ∧ sub ≠ .capture := by
  cases t <;> simp [TapState.inScan, and_assoc]

/-- A scan is entered through Capture only. -/
theorem inScan_of_next {reg : Scan} {t : TapState} {tms : Bool} (h : (t.next tms).inScan reg) :
    t = .scan reg .capture ∨ t.inScan reg := by
  revert h
  cases t with
  | testLogicReset => cases tms <;> cases reg <;> decide
  | runTestIdle => cases tms <;> cases reg <;> decide
  | scan reg' sub => cases reg' <;> cases sub <;> cases tms <;> cases reg <;> decide

/-- What was clocked in Shift since the last time in Capture, where the list has what was
clocked in each state. -/
def scanned {α : Type} (reg : Scan) (clocked : List (TapState × α)) : List α :=
  clocked.foldl (fun since (t, a) =>
    if t = .scan reg .capture then [] else if t = .scan reg .shift then since ++ [a] else since) []

@[simp] theorem scanned_append {α : Type} (reg : Scan) (clocked : List (TapState × α))
    (t : TapState) (a : α) :
    scanned reg (clocked ++ [(t, a)]) =
      if t = .scan reg .capture then []
      else if t = .scan reg .shift then scanned reg clocked ++ [a] else scanned reg clocked := by
  simp [scanned]

theorem scanned_map {α β : Type} (f : α → β) (reg : Scan) (clocked : List (TapState × α)) :
    scanned reg (clocked.map fun (t, a) => (t, f a)) = (scanned reg clocked).map f := by
  induction clocked using List.reverseRecOn with
  | nil => rfl
  | append_singleton clocked x ih =>
    obtain ⟨t, a⟩ := x
    rw [List.map_append, List.map_cons, List.map_nil, scanned_append, scanned_append, ih]
    split_ifs <;> simp

/-- What is clocked with values of TMS, and the states in which it is. -/
def clockedFrom {α : Type} (t : TapState) : List (Bool × α) → List (TapState × α)
  | [] => []
  | (tms, a) :: xs => (t, a) :: clockedFrom (t.next tms) xs

theorem clockedFrom_append {α : Type} (t : TapState) (xs : List (Bool × α)) (tms : Bool) (a : α) :
    clockedFrom t (xs ++ [(tms, a)]) =
      clockedFrom t xs ++ [((xs.map Prod.fst).foldl TapState.next t, a)] := by
  induction xs generalizing t with
  | nil => rfl
  | cons x xs ih => simp [clockedFrom, ih]

theorem clockedFrom_map {α β : Type} (f : α → β) (t : TapState) (xs : List (Bool × α)) :
    clockedFrom t (xs.map fun (tms, a) => (tms, f a)) =
      (clockedFrom t xs).map fun (t, a) => (t, f a) := by
  induction xs generalizing t with
  | nil => rfl
  | cons x xs ih => simp [clockedFrom, ih]

theorem foldl_next (t : TapState) (tms : List Bool) :
    tms.foldl Reg.next t.encode = (tms.foldl TapState.next t).encode := by
  induction tms generalizing t with
  | nil => rfl
  | cons b tms ih => rw [List.foldl_cons, List.foldl_cons, encode_next, ih]

end JtagTapFsm

namespace JtagTapIR

open ShiftRegister

/-- The generics; `IR_LENGTH_G` is `L`. -/
structure Generics (L : ℕ) where
  regIdcode : BitVec L
  regUsercode : BitVec L
  regUser : BitVec L
  irVal : BitVec L
  idcodeVal : BitVec 32
  usercodeVal : BitVec 32

/-- The values that the entity declares for them. -/
def Generics.default : Generics 6 where
  regIdcode := 0b001001
  regUsercode := 0b001000
  regUser := 0b000010
  irVal := 0b110101
  idcodeVal := 0x22228093
  usercodeVal := 0xffffffff

variable {L : ℕ}

/-- `REG_BYPASS_C`. -/
def regBypass (L : ℕ) : BitVec L := BitVec.allOnes L

structure RegN (L : ℕ) where
  ir : BitVec L
  selBypass : Bool
  selUser : Bool
deriving DecidableEq

def RegN.init (g : Generics L) : RegN L where
  ir := g.regIdcode
  selBypass := false
  selUser := false

structure RegP (L : ℕ) where
  shiftIr : BitVec L
  shiftDr : BitVec 32
  drDecoded : Bool
  drLst : ℕ
deriving DecidableEq

def RegP.init (L : ℕ) : RegP L where
  shiftIr := 0
  shiftDr := 0
  drDecoded := true
  drLst := 0

variable (g : Generics L)

/-- `P_COMB_N`. -/
def RegN.next (rn : RegN L) (rp : RegP L) (testLogicReset updateIR : Bool) : RegN L :=
  let ir := if testLogicReset then g.regIdcode else if updateIR then rp.shiftIr else rn.ir
  { ir := ir
    selBypass := decide (ir = regBypass L)
    selUser := if ir = regBypass L then false else decide (ir = g.regUser) }

/-- What `P_COMB_P` does in Capture-DR. -/
def RegP.captureDr (rp : RegP L) (ir : BitVec L) : RegP L :=
  if ir = g.regIdcode then { rp with drDecoded := true, shiftDr := g.idcodeVal, drLst := 31 }
  else if ir = g.regUsercode then
    { rp with drDecoded := true, shiftDr := g.usercodeVal, drLst := 31 }
  else
    { rp with
      drDecoded := decide (ir = regBypass L)
      shiftDr := rp.shiftDr &&& ~~~1
      drLst := 0 }

/-- `P_COMB_P`. -/
def RegP.next (rp : RegP L) (rn : RegN L) (tdi testLogicReset captureIR shiftIR captureDR
    shiftDR : Bool) : RegP L :=
  if testLogicReset then RegP.init L
  else if captureIR then { rp with shiftIr := g.irVal }
  else if shiftIR then { rp with shiftIr := (BitVec.cons tdi rp.shiftIr).extractLsb' 1 L }
  else if captureDR then rp.captureDr g rn.ir
  else if shiftDR then { rp with shiftDr := shiftLow rp.shiftDr rp.drLst tdi }
  else rp

/-- The output `tdo`. -/
def tdo (rp : RegP L) (shiftIR : Bool) : Bool :=
  if shiftIR then rp.shiftIr.getLsbD 0
  else if rp.drDecoded then rp.shiftDr.getLsbD 0
  else true

theorem shiftIr_eq (reg : BitVec L) (tdi : Bool) :
    (BitVec.cons tdi reg).extractLsb' 1 L = shiftLow reg (L - 1) tdi := by
  apply BitVec.eq_of_getLsbD_eq
  intro i hi
  rw [getLsbD_shiftLow _ _ hi, BitVec.getLsbD_extractLsb', BitVec.getLsbD_cons]
  by_cases hlast : i + 1 = L
  · have h1 : 1 + i = L := by omega
    have h2 : ¬ i < L - 1 := by omega
    have h3 : i = L - 1 := by omega
    rw [if_pos h1, if_neg h2, if_pos h3]
    simp [hi]
  · have h1 : ¬ 1 + i = L := by omega
    have h2 : i < L - 1 := by omega
    rw [if_neg h1, if_pos h2, Nat.add_comm 1 i]
    simp [hi]

end JtagTapIR

end XvcSupport
