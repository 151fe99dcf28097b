import XvcSupport.Header

/-!
# The AxisToJtag driver

The transport-independent part of the server's driver: the parameters it adopts
from a query reply, the sizes `sendVectors` computes, the message it lays out in
`txBuf_`, and the retry loop `xferRel` over the transport's `xfer`.
-/

namespace XvcSupport.JtagDriver

/-- Truncation to `unsigned`. -/
def u32 (n : ℕ) : ℕ := n % 2 ^ 32

/-- Truncation to `unsigned long`. -/
def u64 (n : ℕ) : ℕ := n % 2 ^ 64

theorem u32_of_lt {n : ℕ} (h : n < 2 ^ 32) : u32 n = n := Nat.mod_eq_of_lt h

inductive Err
  | sysErr (prefx : String)
  | protoErr (msg : String)
  | timeoutErr
  | runtimeErr (msg : String)
deriving DecidableEq, Repr

/-- The fields of `JtagDriverAxisToJtag` that its methods read and write; what
`txBuf_` holds before the first message is left open, as is the value of the
uninitialised `xid_`. -/
structure Drv where
  wordSize : ℕ
  memDepth : ℕ
  txBuf : Mem
  bufSz : ℕ
  retry : ℕ
  xid : Xid

def Drv.new (txBuf : Mem) (xid : Xid) : Drv where
  wordSize := 4
  memDepth := 1
  txBuf := txBuf
  bufSz := 2048
  retry := 5
  xid := xid

/-- The tail of `query()`, once `xferRel` has returned the header `hdr`.  The word
size is stored before it is checked. -/
def Drv.adopt (d : Drv) (hdr : Header) : Option Err × Drv :=
  let d := { d with wordSize := JtagDriver.wordSize hdr }
  if d.wordSize < 4 then (some (.protoErr "Received invalid word size"), d)
  else
    let d := { d with memDepth := JtagDriver.memDepth hdr }
    let d := { d with retry := if d.memDepth = 0 then 0 else 5 }
    let siz := u32 ((2 * d.memDepth + 1) * d.wordSize)
    (none, if siz > d.bufSz then { d with bufSz := siz } else d)

/-- What `query()` returns: the vector size the target can store, in octets. -/
def Drv.tgtVecLen (d : Drv) : ℕ := u32 (d.memDepth * d.wordSize)

def bytesCeil (bits : ℕ) : ℕ := (bits + 8 - 1) / 8

def wholeWords (wsz bits : ℕ) : ℕ := u32 (bytesCeil bits / wsz)

def wholeWordBytes (wsz bits : ℕ) : ℕ := u32 (wholeWords wsz bits * wsz)

def wordCeilBytes (wsz bits : ℕ) : ℕ := u32 ((bytesCeil bits + wsz - 1) / wsz * wsz)

def bytesLeft (wsz bits : ℕ) : ℕ := u32 (bytesCeil bits - wholeWordBytes wsz bits)

def bytesTot (wsz bits : ℕ) : ℕ := u32 (wsz + 2 * wordCeilBytes wsz bits)

/-- The octets a message occupies: a header word and two vectors, each rounded up
to whole words. -/
def msgOctets (wsz bits : ℕ) : ℕ := wsz + 2 * ((bytesCeil bits + wsz - 1) / wsz * wsz)

section Sizes

variable {wsz bits : ℕ}

theorem ceil_mul_lt (hw : 0 < wsz) (v : ℕ) : (v + wsz - 1) / wsz * wsz < v + wsz := by
  have h := Nat.div_mul_le_self (v + wsz - 1) wsz
  omega

theorem le_ceil_mul (hw : 0 < wsz) (v : ℕ) : v ≤ (v + wsz - 1) / wsz * wsz := by
  have h := Nat.lt_div_mul_add (a := v + wsz - 1) hw
  omega

theorem ceil_le (hw : 0 < wsz) {v m : ℕ} (h : v ≤ m * wsz) : (v + wsz - 1) / wsz ≤ m := by
  have hlt : (v + wsz - 1) / wsz < m + 1 := by
    rw [Nat.div_lt_iff_lt_mul hw, Nat.add_mul]
    omega
  omega

theorem wordCeilBytes_eq (h1 : 1 ≤ wsz) (h2 : wsz ≤ 16) (hb : bits < 2 ^ 32) :
    wordCeilBytes wsz bits = (bytesCeil bits + wsz - 1) / wsz * wsz := by
  have hc : bytesCeil bits ≤ 2 ^ 29 := by unfold bytesCeil; omega
  have hr := ceil_mul_lt h1 (bytesCeil bits)
  exact u32_of_lt (by omega)

theorem bytesTot_eq_msgOctets (h1 : 1 ≤ wsz) (h2 : wsz ≤ 16) (hb : bits < 2 ^ 32) :
    bytesTot wsz bits = msgOctets wsz bits := by
  have hc : bytesCeil bits ≤ 2 ^ 29 := by unfold bytesCeil; omega
  have hr := ceil_mul_lt h1 (bytesCeil bits)
  unfold bytesTot msgOctets
  rw [wordCeilBytes_eq h1 h2 hb]
  exact u32_of_lt (by omega)

theorem msgOctets_mono (wsz : ℕ) {bits bits' : ℕ} (h : bytesCeil bits ≤ bytesCeil bits') :
    msgOctets wsz bits ≤ msgOctets wsz bits' := by
  unfold msgOctets
  have hd : (bytesCeil bits + wsz - 1) / wsz ≤ (bytesCeil bits' + wsz - 1) / wsz :=
    Nat.div_le_div_right (by omega)
  have := Nat.mul_le_mul_right wsz hd
  omega

/-- What is reserved for a memory of `m` words holds the message of every vector that fits the
memory. -/
theorem msgOctets_le_reserved (h1 : 1 ≤ wsz) {m : ℕ} (h : bytesCeil bits ≤ m * wsz) :
    msgOctets wsz bits ≤ (2 * m + 1) * wsz := by
  have hmul := Nat.mul_le_mul_right wsz (ceil_le h1 h)
  rw [msgOctets, Nat.add_mul, Nat.one_mul, Nat.mul_assoc]
  omega

end Sizes

/-- `setw32` with its default length. -/
def setw32 (buf : Mem) (w : Header) : Mem := memcpy buf 0 (memOf (unpackLE 4 w)) 0 4

/-- The header and the padding up to the word size; the amount of padding is
computed in unsigned arithmetic. -/
def setHdr (buf : Mem) (wsz : ℕ) (hdr : Header) : Mem :=
  memcpy (setw32 buf hdr) 4 (fun _ => 0) 0 (u32 (wsz + (2 ^ 32 - 4)))

/-- The loop that stores whole TMS/TDI words; `n` words are left, `idx` and `wp` are
the read and write offsets. -/
def storePairs (tms tdi : Mem) (wsz : ℕ) : ℕ → ℕ → ℕ → Mem → Mem
  | 0, _, _, buf => buf
  | n + 1, idx, wp, buf =>
    let buf := memcpy buf wp tms idx wsz
    let buf := memcpy buf (wp + wsz) tdi idx wsz
    storePairs tms tdi wsz n (idx + wsz) (wp + 2 * wsz) buf

/-- The message `sendVectors` lays out over what the buffer held before; the last,
partial pair of words is not padded. -/
def layout (buf : Mem) (wsz : ℕ) (hdr : Header) (bits : ℕ) (tms tdi : Mem) : Mem :=
  let n := wholeWords wsz bits
  let idx := wholeWordBytes wsz bits
  let wp := wsz + 2 * idx
  let buf := storePairs tms tdi wsz n 0 wsz (setHdr buf wsz hdr)
  if bytesLeft wsz bits ≠ 0 then
    memcpy (memcpy buf wp tms idx (bytesLeft wsz bits)) (wp + wsz) tdi idx (bytesLeft wsz bits)
  else buf

theorem padding_eq {wsz : ℕ} (h4 : 4 ≤ wsz) (h16 : wsz ≤ 16) :
    u32 (wsz + (2 ^ 32 - 4)) = wsz - 4 := by
  unfold u32
  omega

theorem setHdr_low (buf : Mem) (wsz : ℕ) (hdr : Header) {i : ℕ} (hi : i < 4) :
    setHdr buf wsz hdr i = (unpackLE 4 hdr).getD i 0 := by
  rw [setHdr, memcpy_outside (Or.inl hi), setw32, memcpy, if_pos (by omega)]
  rfl

theorem setHdr_octet (buf : Mem) {wsz i : ℕ} (h4 : 4 ≤ wsz) (h16 : wsz ≤ 16) (hdr : Header)
    (hi : i < wsz) : setHdr buf wsz hdr i = (unpackLE 4 hdr).getD i 0 := by
  by_cases hlow : i < 4
  · exact setHdr_low buf wsz hdr hlow
  · obtain ⟨k, rfl⟩ : ∃ k, i = 4 + k := ⟨i - 4, by omega⟩
    rw [setHdr, padding_eq h4 h16, memcpy_inside (by omega)]
    simp [unpackLE]

theorem getHdr_slice {m : Mem} {n : ℕ} {hdr : Header} (hn : 4 ≤ n)
    (h : ∀ i, i < 4 → m i = (unpackLE 4 hdr).getD i 0) : getHdr (slice m 0 n) = hdr := by
  apply BitVec.eq_of_getLsbD_eq
  intro i hi
  have hq : i / 8 < 4 := by omega
  have hm : i % 8 < 8 := by omega
  have hs : 8 * (i / 8) + i % 8 = i := by omega
  have htake : ((slice m 0 n).take 4).getD (i / 8) 0 = (slice m 0 n).getD (i / 8) 0 := by
    simp [List.getD, hq]
  rw [getHdr, getLsbD_packLE _ hi, htake, getD_slice _ _ (by omega), Nat.zero_add, h _ hq,
    List.getD_eq_getElem _ _ (by simpa using hq)]
  simp [unpackLE, hs, hm]

theorem packLE_setHdr (buf : Mem) {wsz : ℕ} (h4 : 4 ≤ wsz) (h16 : wsz ≤ 16) (hdr : Header) :
    packLE (8 * wsz) (slice (setHdr buf wsz hdr) 0 wsz) = hdr.setWidth (8 * wsz) := by
  apply BitVec.eq_of_getLsbD_eq
  intro i hi
  have hq : i / 8 < wsz := by omega
  rw [getLsbD_packLE _ hi, getD_slice _ _ hq, Nat.zero_add, setHdr_octet _ h4 h16 _ hq,
    BitVec.getLsbD_setWidth]
  by_cases h32 : i < 32
  · have hd : i / 8 < 4 := by omega
    have hs : 8 * (i / 8) + i % 8 = i := by omega
    have hm : i % 8 < 8 := by omega
    rw [List.getD_eq_getElem _ _ (by simpa using hd)]
    simp only [unpackLE, List.getElem_map, List.getElem_range, BitVec.getLsbD_extractLsb', hs,
      hi, hm]
  · have hb : hdr.getLsbD i = false := BitVec.getLsbD_of_ge _ _ (by omega)
    rw [List.getD_eq_default _ _ (by simp; omega), hb]
    simp

def errText (e : ℕ) : String :=
  "Got error response from server -- " ++ (getMsg e).getD ("error " ++ toString e)

inductive Verdict
  | accept
  | ignore
  | fail (e : Err)
deriving DecidableEq, Repr

/-- What `xferRel` makes of the header of a reply to a request with ID `xid`; the
command of the reply is not looked at. -/
def judge (xid : Xid) (hdr : Header) : Verdict :=
  if getErr hdr ≠ 0 then .fail (.protoErr (errText (getErr hdr)))
  else if xid = xidAny ∨ xid = getXid hdr then .accept
  else .ignore

/-- The receiving half of `xfer`: the first `hsize` octets are the header word, and at
most `size` of the others go to `rxb + p`. -/
def storeReply (reply : List Byte) (hsize size : ℕ) (rxb : Mem) (p : ℕ) : Except Err Header × Mem :=
  if reply.length < hsize then
    (.error (.protoErr "JtagDriverUdp -- not enough header data received"), rxb)
  else
    (.ok (getHdr reply),
      memcpy rxb p (memOf (reply.drop hsize)) 0 (min size (reply.length - hsize)))

section Transfer

variable {σ : Type*}

/-- The retry loop, with `attempts` calls of `xfer` left; only a timeout and a reply
with another ID lead to a retry. -/
def xferRel (xfer : σ → Except Err Header × σ) (xid : Xid) : ℕ → σ → Except Err Header × σ
  | 0, s => (.error .timeoutErr, s)
  | attempts + 1, s =>
    match xfer s with
    | (.error .timeoutErr, s) => xferRel xfer xid attempts s
    | (.error e, s) => (.error e, s)
    | (.ok hdr, s) =>
      match judge xid hdr with
      | .accept => (.ok hdr, s)
      | .ignore => xferRel xfer xid attempts s
      | .fail e => (.error e, s)

/-- The driver, the buffer its caller passes for TDO, and the state of the net. -/
structure Link (σ : Type*) where
  drv : Drv
  tdo : Mem
  net : σ

abbrev Exchange (σ : Type*) := σ → List Byte → Except Err (List Byte) × σ

def xfer (exchange : Exchange σ) (msg : List Byte) (hsize size p : ℕ) (s : Mem × σ) :
    Except Err Header × Mem × σ :=
  match exchange s.2 msg with
  | (.error e, net) => (.error e, s.1, net)
  | (.ok reply, net) =>
    let (r, rxb) := storeReply reply hsize size s.1 p
    (r, rxb, net)

/-- The message of a shift, as it is handed to `xfer`. -/
def Drv.shiftMsg (d : Drv) (bits : ℕ) (tms tdi : Mem) : List Byte :=
  slice (layout d.txBuf d.wordSize (mkShift (newXid d.xid) bits) bits tms tdi) 0
    (bytesTot d.wordSize bits)

/-- The driver once the message is in `txBuf_`. -/
def Drv.afterShift (d : Drv) (bits : ℕ) (tms tdi : Mem) : Drv :=
  { d with
    xid := newXid d.xid
    txBuf := layout d.txBuf d.wordSize (mkShift (newXid d.xid) bits) bits tms tdi }

/-- `sendVectors(bits, tms, tdi, tdo + p)`. -/
def sendVectors (exchange : Exchange σ) (bits : ℕ) (tms tdi : Mem) (p : ℕ) (l : Link σ) :
    Option Err × Link σ :=
  let msg := l.drv.shiftMsg bits tms tdi
  let (r, tdo, net) := xferRel (xfer exchange msg l.drv.wordSize (u32 (bytesCeil bits)) p)
    (getXid (getHdr msg)) (l.drv.retry + 1) (l.tdo, l.net)
  let l := { drv := l.drv.afterShift bits tms tdi, tdo := tdo, net := net }
  match r with
  | .error e => (some e, l)
  | .ok _ => (none, l)

def Drv.queryMsg (d : Drv) : List Byte := slice (setHdr d.txBuf d.wordSize mkQuery) 0 d.wordSize

theorem getHdr_queryMsg (d : Drv) (h4 : 4 ≤ d.wordSize) : getHdr d.queryMsg = mkQuery :=
  getHdr_slice h4 fun _ hi => setHdr_low _ _ _ hi

def Drv.afterQueryMsg (d : Drv) : Drv := { d with txBuf := setHdr d.txBuf d.wordSize mkQuery }

/-- `query()`; its header carries `XID_ANY`. -/
def query (exchange : Exchange σ) (l : Link σ) : Option Err × Link σ :=
  let msg := l.drv.queryMsg
  let (r, tdo, net) := xferRel (xfer exchange msg l.drv.wordSize 0 0) (getXid (getHdr msg))
    (l.drv.retry + 1) (l.tdo, l.net)
  match r with
  | .error e => (some e, { drv := l.drv.afterQueryMsg, tdo := tdo, net := net })
  | .ok hdr =>
    let (e, d) := l.drv.afterQueryMsg.adopt hdr
    (e, { drv := d, tdo := tdo, net := net })

end Transfer

end XvcSupport.JtagDriver
