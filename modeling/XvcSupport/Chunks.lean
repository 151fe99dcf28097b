import XvcSupport.Transport
import XvcSupport.Firmware

namespace XvcSupport.XvcConn

open JtagDriver

/-- `supVecLen_` as `allocBufs` leaves it, from `maxVecLen_`, the result of
`query()` and the driver's `getMaxVectorSize()`. -/
def supVecLen (maxVecLen tgtVecLen drvMax : ℕ) : ℕ :=
  let tgtVecLen := if tgtVecLen = 0 then maxVecLen else tgtVecLen
  if drvMax = 0 then tgtVecLen else if tgtVecLen < drvMax then tgtVecLen else drvMax

/-- The octets of one vector, in the 32-bit arithmetic of the shift branch. -/
def vecBytes (bits : ℕ) : ℕ := u32 (bits + 7) / 8

def vecLen (bytes sup : ℕ) : ℕ := if bytes > sup then sup else bytes

def bitsSent (vecLen bitsLeft : ℕ) : ℕ :=
  if bitsLeft < u32 (8 * vecLen) then bitsLeft else u32 (8 * vecLen)

theorem bitsSent_le (v left : ℕ) : bitsSent v left ≤ 8 * v ∧ bitsSent v left ≤ left := by
  have hu : u32 (8 * v) ≤ 8 * v := Nat.mod_le _ _
  unfold bitsSent
  split_ifs <;> omega

theorem bitsSent_pos {v left : ℕ} (hv : 0 < v) (hlt : v < 2 ^ 29) (hl : 0 < left) :
    0 < bitsSent v left := by
  have hu : u32 (8 * v) = 8 * v := u32_of_lt (by omega)
  rw [bitsSent, hu]
  split_ifs <;> omega

/-- How far a piece of code has come after a number of rounds: it has returned or thrown, a signal
has killed the process, or it is still running. -/
inductive Progress
  | returned
  | threw (e : Err)
  | killed
  | running
deriving DecidableEq, Repr

section Loop

variable {σ : Type*} (send : σ → ℕ → ℕ → Option Err × σ)

/-- The chunk loop, for a number of rounds; `send s bitsSent off` is the call of
`sendVectors` in state `s`. -/
def shiftLoop (vecLen : ℕ) : ℕ → ℕ → ℕ → σ → Progress × σ
  | 0, _, _, s => (.running, s)
  | rounds + 1, off, bitsLeft, s =>
    if bitsLeft = 0 then (.returned, s)
    else
      match send s (bitsSent vecLen bitsLeft) off with
      | (some e, s) => (.threw e, s)
      | (none, s) =>
        shiftLoop vecLen rounds (off + vecLen) (bitsLeft - bitsSent vecLen bitsLeft) s

/-- The loop of one request of `bits` bits. -/
def shift (sup rounds bits : ℕ) (s : σ) : Progress × σ :=
  shiftLoop send (vecLen (vecBytes bits) sup) rounds 0 bits s

variable {send}

theorem shiftLoop_inv {P : σ → Prop} {v bits : ℕ}
    (hsend : ∀ s left off, P s → 0 < left → left ≤ bits → P (send s (bitsSent v left) off).2)
    (rounds off left : ℕ) (s : σ) (hleft : left ≤ bits) (hs : P s) :
    P (shiftLoop send v rounds off left s).2 := by
  induction rounds generalizing off left s with
  | zero => exact hs
  | succ rounds ih =>
    unfold shiftLoop
    split_ifs with h0
    · exact hs
    have hkeep := hsend s left off hs (Nat.pos_of_ne_zero h0) hleft
    cases hcall : send s (bitsSent v left) off with
    | mk e s' =>
      rw [hcall] at hkeep
      cases e with
      | some e => exact hkeep
      | none => exact ih _ _ _ ((Nat.sub_le _ _).trans hleft) hkeep

end Loop

theorem vecBytes_eq {bits : ℕ} (h : bits ≤ 0xFFFFFFF8) : vecBytes bits = bytesCeil bits := by
  unfold vecBytes bytesCeil u32
  omega

theorem vecBytes_lt (bits : ℕ) : vecBytes bits < 2 ^ 29 := by
  have h : u32 (bits + 7) < 2 ^ 32 := Nat.mod_lt _ (by decide)
  unfold vecBytes
  omega

/-- A call of `sendVectors`: `xid_` before and after, the header and the number of
bits. -/
structure Call where
  prev : Xid
  xid : Xid
  hdr : Header
  bits : ℕ

structure CallLog where
  xid : Xid
  calls : List Call

/-- `sendVectors`, as far as its header goes. -/
def logCall (s : CallLog) (bits _off : ℕ) : Option Err × CallLog :=
  let xid := newXid s.xid
  (none, { xid := xid, calls := s.calls ++ [⟨s.xid, xid, mkShift xid bits, bits⟩] })

/-- The calls a request makes within a number of rounds, from a value of `xid_`. -/
def callsOf (sup rounds bits : ℕ) (xid : Xid) : List Call :=
  (shift logCall sup rounds bits ⟨xid, []⟩).2.calls

/-- Every call has this shape: a fresh ID, its header, and at most a chunk and the
request in bits. -/
theorem callsOf_spec {sup rounds bits : ℕ} {xid : Xid} {c : Call}
    (hc : c ∈ callsOf sup rounds bits xid) :
    c.xid = newXid c.prev ∧ c.hdr = mkShift c.xid c.bits ∧
      ∃ left, 0 < left ∧ left ≤ bits ∧ c.bits = bitsSent (vecLen (vecBytes bits) sup) left := by
  refine shiftLoop_inv (P := fun s : CallLog => ∀ c ∈ s.calls,
    c.xid = newXid c.prev ∧ c.hdr = mkShift c.xid c.bits ∧
      ∃ left, 0 < left ∧ left ≤ bits ∧ c.bits = bitsSent (vecLen (vecBytes bits) sup) left)
    ?_ rounds 0 bits ⟨xid, []⟩ le_rfl (by simp) c hc
  intro s left off hs h0 hb c hc
  rcases List.mem_append.mp hc with h | h
  · exact hs c h
  · rw [List.mem_singleton.mp h]
    exact ⟨rfl, rfl, left, h0, hb, rfl⟩

theorem call_bits_le {sup rounds bits : ℕ} {xid : Xid} {c : Call}
    (hc : c ∈ callsOf sup rounds bits xid) :
    c.bits ≤ 8 * vecLen (vecBytes bits) sup ∧ c.bits ≤ bits := by
  obtain ⟨-, -, left, -, hl, hb⟩ := callsOf_spec hc
  have h := bitsSent_le (vecLen (vecBytes bits) sup) left
  omega

theorem first_call {sup bits : ℕ} (xid : Xid) (hb : 0 < bits) :
    ⟨xid, newXid xid, mkShift (newXid xid) (bitsSent (vecLen (vecBytes bits) sup) bits),
      bitsSent (vecLen (vecBytes bits) sup) bits⟩ ∈ callsOf sup 1 bits xid := by
  simp [callsOf, shift, shiftLoop, logCall, Nat.pos_iff_ne_zero.mp hb]

theorem bitsSent_first {sup bits : ℕ} (hb : bits ≤ 0xFFFFFFF8) :
    bitsSent (vecLen (vecBytes bits) sup) bits = min bits (8 * sup) := by
  have hv := vecBytes_eq hb
  have hlt := vecBytes_lt bits
  have hu : u32 (8 * vecLen (vecBytes bits) sup) = 8 * vecLen (vecBytes bits) sup := by
    apply u32_of_lt
    unfold vecLen
    split_ifs <;> omega
  rw [bitsSent, hu]
  unfold vecLen
  unfold bytesCeil at hv
  split_ifs <;> omega

end XvcSupport.XvcConn
