import XvcSupport.Words

namespace XvcSupport

abbrev Header := BitVec 32
abbrev Xid := BitVec 8

namespace JtagDriver

def xidAny : Xid := 0
def pvers : Header := 0x00000000
def cmdQ : Header := 0x00000000
def cmdS : Header := 0x10000000
def cmdE : Header := 0x20000000
def cmdMask : Header := 0x30000000
def errMask : Header := 0x000000ff
def errShift : ℕ := 0
def xidShift : ℕ := 20
def lenShift : ℕ := 0

def getXid (x : Header) : Xid := ((x >>> 20) &&& 0xff).setWidth 8

def getCmd (x : Header) : Header := x &&& cmdMask

def getErr (x : Header) : ℕ := if getCmd x ≠ cmdE then 0 else ((x &&& errMask) >>> errShift).toNat

/-- `getMsg`; `none` is the NULL of an unknown code. -/
def getMsg : ℕ → Option String
  | 0 => some "NO ERROR"
  | 1 => some "Unsupported Protocol Version"
  | 2 => some "Unsupported Command"
  | 3 => some "Unsupported Command"
  | 4 => some "XVC Support not Instantiated in Firmware"
  | _ => none

/-- The new value of `xid_`: the increment skips `XID_ANY`. -/
def newXid (xid : Xid) : Xid := if xid + 1 = xidAny then xid + 1 + 1 else xid + 1

def mkQuery : Header := pvers ||| cmdQ ||| xidAny.setWidth 32

/-- The header of a shift of `len` bits under the ID just taken by `newXid`; the
length is not masked. -/
def mkShift (xid : Xid) (len : ℕ) : Header :=
  pvers ||| cmdS ||| (xid.setWidth 32 <<< xidShift) ||| ((BitVec.ofNat 32 len - 1) <<< lenShift)

def wordSize (reply : Header) : ℕ := (reply &&& 0x0000000f).toNat + 1

def memDepth (reply : Header) : ℕ := ((reply >>> 4) &&& 0xffff).toNat

/-- The 32-bit value of the first four octets of a buffer. -/
def getHdr (buf : List Byte) : Header := packLE 32 (buf.take 4)

end JtagDriver

namespace AxisToJtagPkg

variable {W : ℕ}

def proVersn : BitVec 2 := 0b00
def cmdQuery : BitVec 2 := 0b00
def cmdTrans : BitVec 2 := 0b01
def cmdError : BitVec 2 := 0b10
def errBadVersion : BitVec 20 := 1
def errBadCommand : BitVec 20 := 2
def errTruncated : BitVec 20 := 3

def getVersion (data : BitVec W) : BitVec 2 := data.extractLsb' 30 2
def setVersion (version : BitVec 2) (data : BitVec W) : BitVec W := putSlice data 30 version
def getCommand (data : BitVec W) : BitVec 2 := data.extractLsb' 28 2
def getXid (data : BitVec W) : BitVec 8 := data.extractLsb' 20 8
def getLen (data : BitVec W) : BitVec 20 := data.extractLsb' 0 20
def setErr (err : BitVec 20) (data : BitVec W) : BitVec W :=
  putSlice (putSlice data 28 cmdError) 0 err

end AxisToJtagPkg

open JtagDriver

theorem newXid_ne_zero (xid : Xid) : newXid xid ≠ 0 := by
  unfold newXid xidAny
  split_ifs with h
  · rw [h]; decide
  · exact h

theorem newXid_ne_self (xid : Xid) : newXid xid ≠ xid := by
  revert xid
  decide

theorem getXid_eq_extract (x : Header) : JtagDriver.getXid x = AxisToJtagPkg.getXid x := by
  apply BitVec.eq_of_getLsbD_eq
  intro i hi
  have hm : (255#32).getLsbD i = true := by
    revert i; decide
  have h32 : i < 32 := by omega
  simp only [JtagDriver.getXid, AxisToJtagPkg.getXid, BitVec.getLsbD_setWidth, BitVec.getLsbD_and,
    BitVec.getLsbD_ushiftRight, BitVec.getLsbD_extractLsb', BitVec.ofNat_eq_ofNat, hm, hi,
    Bool.and_true]

theorem toNat_and_mask (x : Header) {k : ℕ} (hk : k ≤ 32) :
    (x &&& BitVec.ofNat 32 (2 ^ k - 1)).toNat = (x.extractLsb' 0 k).toNat := by
  have hp : 2 ^ k ≤ 2 ^ 32 := Nat.pow_le_pow_right (by decide) hk
  have h0 : 0 < 2 ^ k := by positivity
  rw [BitVec.toNat_and, BitVec.toNat_ofNat, Nat.mod_eq_of_lt (by omega),
    Nat.and_two_pow_sub_one_eq_mod, BitVec.extractLsb'_toNat]
  simp

theorem wordSize_eq_extract (x : Header) :
    JtagDriver.wordSize x = (x.extractLsb' 0 4).toNat + 1 :=
  congrArg (· + 1) (toNat_and_mask x (by decide : 4 ≤ 32))

theorem memDepth_eq_extract (x : Header) : JtagDriver.memDepth x = (x.extractLsb' 4 16).toNat := by
  have h := toNat_and_mask (x >>> 4) (by decide : 16 ≤ 32)
  rw [JtagDriver.memDepth, show (0xffff : Header) = BitVec.ofNat 32 (2 ^ 16 - 1) from rfl, h]
  simp [BitVec.extractLsb'_toNat]

theorem extractLsb'_setWidth_low {W lo k : ℕ} (w : BitVec W) (h : lo + k ≤ 32) :
    (w.setWidth 32).extractLsb' lo k = w.extractLsb' lo k := by
  apply BitVec.eq_of_getLsbD_eq
  intro i hi
  have h32 : lo + i < 32 := by omega
  simp only [BitVec.getLsbD_extractLsb', BitVec.getLsbD_setWidth, h32, decide_true, Bool.true_and]

theorem extractLsb'_setWidth_high {W lo k : ℕ} (x : Header) (hW : 32 ≤ W) (h : lo + k ≤ 32) :
    (x.setWidth W).extractLsb' lo k = x.extractLsb' lo k := by
  apply BitVec.eq_of_getLsbD_eq
  intro i hi
  have hlt : lo + i < W := by omega
  simp only [BitVec.getLsbD_extractLsb', BitVec.getLsbD_setWidth, hlt, decide_true, Bool.true_and]

section MkShift

variable (xid : Xid) (len : ℕ)

theorem getLsbD_mkShift {i : ℕ} (hi : i < 32) : (mkShift xid len).getLsbD i =
    (i == 28 || (decide (20 ≤ i) && xid.getLsbD (i - 20)) ||
      (BitVec.ofNat 32 len - 1).getLsbD i) := by
  have hc : cmdS.getLsbD i = (i == 28) := by
    revert i; decide
  have hp : pvers.getLsbD i = false := BitVec.getLsbD_zero
  simp only [mkShift, BitVec.getLsbD_or, BitVec.getLsbD_shiftLeft, BitVec.getLsbD_setWidth,
    hc, hp, hi, xidShift, lenShift]
  by_cases h20 : i < 20
  · simp [h20, Nat.not_le.mpr h20]
  · have h32 : i - 20 < 32 := by omega
    simp [h20, Nat.le_of_not_lt h20, h32]

variable {len}

/-- The unmasked length leaves the upper fields alone as long as it fits its own. -/
theorem getLsbD_mkShift_high (h1 : 1 ≤ len) (h2 : len ≤ 2 ^ 20) {i : ℕ} (h20 : 20 ≤ i)
    (hi : i < 32) : (mkShift xid len).getLsbD i = (i == 28 || xid.getLsbD (i - 20)) := by
  have hn : (BitVec.ofNat 32 len - 1).toNat = len - 1 := by
    rw [BitVec.toNat_sub]
    simp
    omega
  have hz : (BitVec.ofNat 32 len - 1).getLsbD i = false := by
    rw [BitVec.getLsbD, hn]
    exact Nat.testBit_eq_false_of_lt
      (lt_of_lt_of_le (by omega : len - 1 < 2 ^ 20) (Nat.pow_le_pow_right (by decide) h20))
  simp only [getLsbD_mkShift xid len hi, hz, h20, decide_true, Bool.true_and, Bool.or_false]

theorem getVersion_mkShift (h1 : 1 ≤ len) (h2 : len ≤ 2 ^ 20) :
    AxisToJtagPkg.getVersion (mkShift xid len) = AxisToJtagPkg.proVersn := by
  apply BitVec.eq_of_getLsbD_eq
  intro i hi
  have hx : xid.getLsbD (30 + i - 20) = false := BitVec.getLsbD_of_ge _ _ (by omega)
  have h28 : (30 + i == 28) = false := by simp; omega
  rw [AxisToJtagPkg.getVersion, BitVec.getLsbD_extractLsb',
    getLsbD_mkShift_high xid h1 h2 (by omega) (by omega), hx, h28]
  simp [AxisToJtagPkg.proVersn]

theorem getCommand_mkShift (h1 : 1 ≤ len) (h2 : len ≤ 2 ^ 20) :
    AxisToJtagPkg.getCommand (mkShift xid len) = AxisToJtagPkg.cmdTrans := by
  apply BitVec.eq_of_getLsbD_eq
  intro i hi
  have hx : xid.getLsbD (28 + i - 20) = false := BitVec.getLsbD_of_ge _ _ (by omega)
  rw [AxisToJtagPkg.getCommand, BitVec.getLsbD_extractLsb',
    getLsbD_mkShift_high xid h1 h2 (by omega) (by omega), hx]
  clear hx
  revert i; decide

theorem getXid_mkShift (h1 : 1 ≤ len) (h2 : len ≤ 2 ^ 20) :
    AxisToJtagPkg.getXid (mkShift xid len) = xid := by
  apply BitVec.eq_of_getLsbD_eq
  intro i hi
  have h28 : (20 + i == 28) = false := by simp; omega
  rw [AxisToJtagPkg.getXid, BitVec.getLsbD_extractLsb',
    getLsbD_mkShift_high xid h1 h2 (by omega) (by omega), h28]
  simp [hi]

theorem getLen_mkShift (hlen : 1 ≤ len) (h32 : len < 2 ^ 32) :
    (AxisToJtagPkg.getLen (mkShift xid len)).toNat = (len - 1) % 2 ^ 20 := by
  have hn : (BitVec.ofNat 32 len - 1).toNat = len - 1 := by
    rw [BitVec.toNat_sub]
    simp
    omega
  have he : AxisToJtagPkg.getLen (mkShift xid len) = BitVec.ofNat 20 (len - 1) := by
    apply BitVec.eq_of_getLsbD_eq
    intro i hi
    have h28 : (i == 28) = false := by simp; omega
    have h20 : decide (20 ≤ i) = false := by simp; omega
    have hb : (BitVec.ofNat 32 len - 1).getLsbD i = (len - 1).testBit i := by
      rw [BitVec.getLsbD, hn]
    rw [AxisToJtagPkg.getLen, BitVec.getLsbD_extractLsb', Nat.zero_add,
      getLsbD_mkShift xid len (by omega), h28, h20, hb]
    simp only [BitVec.getLsbD_ofNat, hi, decide_true, Bool.true_and, Bool.false_and,
      Bool.false_or]
  rw [he, BitVec.toNat_ofNat]

end MkShift

end XvcSupport
