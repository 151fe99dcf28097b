import XvcSupport.Header

/-!
# The firmware at the level of whole frames

A request is a frame of stream words, the header first.  `serve` says what
AxisToJtag answers to one frame and what it leaves behind: the last transaction
ID, the stored TDO words and the history of the JTAG clock.  The decision itself
is the `IDLE_S` branch of the protocol state machine.
-/

namespace XvcSupport.AxisToJtag

open AxisToJtagPkg

/-- The generics of the AxisToJtag entity; `tckBits` is the TCK period code
`TCK_BITS_C` derived from the clock frequency. -/
structure Generics where
  axisWidth : ℕ
  memDepth : ℕ
  tckBits : BitVec 8
  four_le : 4 ≤ axisWidth
  le_sixteen : axisWidth ≤ 16
  memDepth_lt : memDepth < 2 ^ 16

/-- An entity that announces the period code 0, the unknown period. -/
def Generics.ofSize (axisWidth memDepth : ℕ)
    (h : 4 ≤ axisWidth ∧ axisWidth ≤ 16 ∧ memDepth < 2 ^ 16) : Generics :=
  ⟨axisWidth, memDepth, 0, h.1, h.2.1, h.2.2⟩

/-- `WORD_SIZE_C`. -/
abbrev Generics.W (g : Generics) : ℕ := 8 * g.axisWidth

theorem Generics.W_mul (g : Generics) (n : ℕ) : g.W * n = 8 * (n * g.axisWidth) := by
  rw [Nat.mul_assoc, Nat.mul_comm g.axisWidth]

theorem Generics.le_W (g : Generics) : 32 ≤ g.W := by
  have := g.four_le
  unfold Generics.W
  omega

/-- `StdRtlPkg.log2`: the base-2 logarithm, rounded up. -/
def log2 (number : ℕ) : ℕ := if number < 2 then 1 else Nat.clog 2 number

variable (g : Generics)

def xidIsNew (data : BitVec g.W) (xid : BitVec 8) (memValid : Bool) : Bool :=
  if g.memDepth = 0 ∨ memValid = false then true else getXid data != xid

/-- One guard bit more than the length field. -/
def checkLen (data : BitVec g.W) : Bool :=
  if 0 < g.memDepth then
    let len := (getLen data).setWidth 21 + 1
    let inc := ((1 : BitVec 21) <<< log2 g.W) - 1
    let len := (len + inc) >>> log2 g.W
    decide (len.toNat ≤ g.memDepth)
  else true

def setQueryData (data : BitVec g.W) : BitVec g.W :=
  let data := putSlice data 0 (0 : BitVec 20)
  let data := putSlice data 0 (BitVec.ofNat 4 (g.axisWidth - 1))
  let data := putSlice data 4 (BitVec.ofNat 16 g.memDepth)
  putSlice data 20 g.tckBits

/-- The outcome of inspecting a header word. -/
inductive Decision
  | badVersion
  | query
  | badCommand
  | truncated
  | execute
  | replay
deriving DecidableEq, Repr

/-- The `IDLE_S` branch of `P_COMB`. -/
def idle (xid : BitVec 8) (memValid : Bool) (data : BitVec g.W) (tLast : Bool) : Decision :=
  if getVersion data ≠ proVersn then .badVersion
  else if getCommand data = cmdQuery then .query
  else if getCommand data = cmdTrans then
    if tLast then .truncated
    else if checkLen g data = false then .truncated
    else if xidIsNew g data xid memValid then .execute
    else .replay
  else .badCommand

theorem log2_two_pow {a : ℕ} (ha : 1 ≤ a) : log2 (2 ^ a) = a := by
  have h2 : ¬ 2 ^ a < 2 := by
    have := Nat.pow_le_pow_right (n := 2) (by decide) ha
    omega
  rw [log2, if_neg h2, Nat.clog_pow 2 a (by decide)]

/-- An edge of TCK with the levels of TMS and TDI just before it. -/
structure Edge where
  rise : Bool
  tms : Bool
  tdi : Bool
deriving DecidableEq, Repr

/-- The JTAG target: the level of TDO as a function of the clock edges so far and
the present levels of TMS and TDI. -/
abbrev Tap := List Edge → Bool → Bool → Bool

/-- One TCK period for every bit of the two vectors. -/
def edgesOf (bits : List (Bool × Bool)) : List Edge :=
  bits.flatMap fun b => [⟨true, b.1, b.2⟩, ⟨false, b.1, b.2⟩]

/-- TDO as sampled at the `i`-th rise of TCK of a shift. -/
def tdoAt (tap : Tap) (hist : List Edge) (bits : List (Bool × Bool)) (i : ℕ) : Bool :=
  tap (hist ++ edgesOf (bits.take i)) (bits.getD i (false, false)).1
    (bits.getD i (false, false)).2

variable {W : ℕ}

def pairs : List (BitVec W) → List (BitVec W × BitVec W)
  | tms :: tdi :: rest => (tms, tdi) :: pairs rest
  | _ => []

/-- The first `n` bits of the two vectors, least significant bit of the first word
first. -/
def vecBits (n : ℕ) (ws : List (BitVec W × BitVec W)) : List (Bool × Bool) :=
  (List.range n).map fun i =>
    ((ws.getD (i / W) (0, 0)).1.getLsbD (i % W), (ws.getD (i / W) (0, 0)).2.getLsbD (i % W))

/-- Word `j` of a TDO vector of `n` bits: right-aligned and zero-filled. -/
def tdoWord (W : ℕ) (n : ℕ) (tdo : ℕ → Bool) (j : ℕ) : BitVec W :=
  BitVec.ofFnLE fun i : Fin W => decide (j * W + i.val < n) && tdo (j * W + i.val)

/-- The number of words that hold `n` bits. -/
def wordCount (W n : ℕ) : ℕ := (n + W - 1) / W

theorem log2_le (hW : g.W ≤ 2 ^ 7) : log2 g.W ≤ 7 := by
  have h2 : ¬ g.W < 2 := by have := g.le_W; omega
  rw [log2, if_neg h2]
  exact Nat.clog_le_of_le_pow hW

theorem checkLen_iff_log2 (data : BitVec g.W) :
    checkLen g data = true ↔
      g.memDepth = 0 ∨ wordCount (2 ^ log2 g.W) ((getLen data).toNat + 1) ≤ g.memDepth := by
  have h7 := log2_le g (by have := g.le_sixteen; unfold Generics.W; omega)
  have hp : 2 ^ log2 g.W ≤ 2 ^ 7 := Nat.pow_le_pow_right (by decide) h7
  have hp0 : 0 < 2 ^ log2 g.W := Nat.two_pow_pos _
  have hl := (getLen data).isLt
  have hone : ((1 : BitVec 21) <<< log2 g.W).toNat = 2 ^ log2 g.W := by
    rw [BitVec.toNat_shiftLeft, Nat.shiftLeft_eq]
    simp
    omega
  have hinc : (((1 : BitVec 21) <<< log2 g.W) - 1).toNat = 2 ^ log2 g.W - 1 := by
    rw [BitVec.toNat_sub, hone]
    simp
    omega
  have hlen : ((getLen data).setWidth 21 + 1).toNat = (getLen data).toNat + 1 := by
    rw [BitVec.toNat_add, BitVec.toNat_setWidth]
    simp
    omega
  have hsum : (((getLen data).setWidth 21 + 1) + (((1 : BitVec 21) <<< log2 g.W) - 1)).toNat =
      (getLen data).toNat + 1 + 2 ^ log2 g.W - 1 := by
    rw [BitVec.toNat_add, hlen, hinc]
    omega
  unfold checkLen
  split_ifs with hd
  · simp only [decide_eq_true_eq, BitVec.toNat_ushiftRight, hsum, Nat.shiftRight_eq_div_pow,
      wordCount]
    omega
  · simp
    omega

/-- For a power-of-two width the length check counts words exactly. -/
theorem checkLen_iff {a : ℕ} (ha : g.W = 2 ^ a) (data : BitVec g.W) :
    checkLen g data = true ↔
      g.memDepth = 0 ∨ wordCount g.W ((getLen data).toNat + 1) ≤ g.memDepth := by
  have h1 : 1 ≤ a := by
    rcases Nat.eq_zero_or_pos a with h | h
    · have := g.le_W
      rw [h] at ha
      omega
    · exact h
  have hlog : 2 ^ log2 g.W = g.W := by rw [ha, log2_two_pow h1]
  rw [checkLen_iff_log2, hlog]

/-- What lasts from one frame to the next. -/
structure Fw (W : ℕ) where
  xid : BitVec 8
  memValid : Bool
  mem : List (BitVec W)
  hist : List Edge

/-- The state after reset. -/
def Fw.init (W : ℕ) : Fw W := { xid := 0, memValid := false, mem := [], hist := [] }

/-- The number of bits a shift request moves: as many as announced, or as the
complete pairs of a shorter payload hold. -/
def shiftLen (data : BitVec g.W) (payload : List (BitVec g.W)) : ℕ :=
  min ((getLen data).toNat + 1) (g.W * (pairs payload).length)

def shiftBits (data : BitVec g.W) (payload : List (BitVec g.W)) : List (Bool × Bool) :=
  vecBits (shiftLen g data payload) (pairs payload)

/-- The TDO words of a shift. -/
def shiftTdo (tap : Tap) (hist : List Edge) (data : BitVec g.W) (payload : List (BitVec g.W)) :
    List (BitVec g.W) :=
  (List.range (wordCount g.W (shiftLen g data payload))).map
    (tdoWord g.W (shiftLen g data payload) (tdoAt tap hist (shiftBits g data payload)))

/-- Serve one request frame: the words of the reply and the state left behind. -/
def serve (tap : Tap) (s : Fw g.W) : List (BitVec g.W) → List (BitVec g.W) × Fw g.W
  | [] => ([], s)
  | data :: payload =>
    match idle g s.xid s.memValid data payload.isEmpty with
    | .badVersion => ([setErr errBadVersion (setVersion proVersn data)], s)
    | .query => ([setQueryData g data], { s with memValid := false })
    | .badCommand => ([setErr errBadCommand data], s)
    | .truncated => ([setErr errTruncated data], s)
    | .replay => (data :: s.mem, s)
    | .execute =>
      if payload.length = 1 then
        -- TLAST on the first TMS word: the core has not started yet
        ([setErr errTruncated data], { s with xid := getXid data, memValid := false })
      else
        (data :: shiftTdo g tap s.hist data payload,
          { xid := getXid data
            memValid := decide (0 < g.memDepth)
            mem := shiftTdo g tap s.hist data payload
            hist := s.hist ++ edgesOf (shiftBits g data payload) })

def starts (s : Fw g.W) : List (BitVec g.W) → Bool
  | [] => false
  | data :: payload =>
    idle g s.xid s.memValid data payload.isEmpty = .execute && payload.length != 1

/-- The frame is answered from the stored reply. -/
def replays (s : Fw g.W) : List (BitVec g.W) → Bool
  | [] => false
  | data :: payload => idle g s.xid s.memValid data payload.isEmpty = .replay

end XvcSupport.AxisToJtag
