import XvcSupport.ReadBack

namespace XvcSupport.JtagDriver

section Layout

variable (tms tdi : Mem) {wsz : ℕ}

theorem storePairs_outside (n idx wp : ℕ) (buf : Mem) {i : ℕ}
    (h : i < wp ∨ wp + 2 * wsz * n ≤ i) : storePairs tms tdi wsz n idx wp buf i = buf i := by
  induction n generalizing idx wp buf with
  | zero => rfl
  | succ n ih =>
    have hn : 2 * wsz * (n + 1) = 2 * wsz * n + 2 * wsz := by ring
    rw [storePairs, ih _ _ _ (by omega), memcpy_outside (by omega), memcpy_outside (by omega)]

theorem storePairs_word {n j r : ℕ} (idx wp : ℕ) (buf : Mem) (hj : j < n) (hr : r < wsz) :
    storePairs tms tdi wsz n idx wp buf (wp + 2 * wsz * j + r) = tms (idx + wsz * j + r) ∧
      storePairs tms tdi wsz n idx wp buf (wp + 2 * wsz * j + wsz + r) =
        tdi (idx + wsz * j + r) := by
  induction n generalizing j idx wp buf with
  | zero => omega
  | succ n ih =>
    rw [storePairs]
    cases j with
    | zero =>
      rw [storePairs_outside _ _ _ _ _ _ (by omega), storePairs_outside _ _ _ _ _ _ (by omega)]
      have e1 : wp + 2 * wsz * 0 + r = wp + r := by ring
      have e2 : wp + 2 * wsz * 0 + wsz + r = wp + wsz + r := by ring
      have e3 : idx + wsz * 0 + r = r + idx := by ring
      rw [e1, e2, e3, memcpy_outside (by omega), memcpy_inside hr, memcpy_inside hr]
      exact ⟨rfl, rfl⟩
    | succ j =>
      have h := ih (j := j) (idx + wsz) (wp + 2 * wsz)
        (memcpy (memcpy buf wp tms idx wsz) (wp + wsz) tdi idx wsz) (by omega)
      have e1 : wp + 2 * wsz + 2 * wsz * j = wp + 2 * wsz * (j + 1) := by ring
      have e2 : idx + wsz + wsz * j = idx + wsz * (j + 1) := by ring
      rwa [e1, e2] at h

variable {bits : ℕ}

theorem wholeWords_eq (hb : bits < 2 ^ 32) :
    wholeWords wsz bits = bytesCeil bits / wsz := by
  have hc : bytesCeil bits ≤ 2 ^ 29 := by unfold bytesCeil; omega
  have hd := Nat.div_le_self (bytesCeil bits) wsz
  exact u32_of_lt (by omega)

theorem wholeWordBytes_eq (hb : bits < 2 ^ 32) :
    wholeWordBytes wsz bits = wsz * (bytesCeil bits / wsz) := by
  have hc : bytesCeil bits ≤ 2 ^ 29 := by unfold bytesCeil; omega
  have hd := Nat.div_mul_le_self (bytesCeil bits) wsz
  rw [wholeWordBytes, wholeWords_eq hb, u32_of_lt (by omega), Nat.mul_comm]

theorem bytesLeft_eq (hb : bits < 2 ^ 32) :
    bytesLeft wsz bits = bytesCeil bits % wsz := by
  have hc : bytesCeil bits ≤ 2 ^ 29 := by unfold bytesCeil; omega
  have hd := Nat.div_add_mod (bytesCeil bits) wsz
  rw [bytesLeft, wholeWordBytes_eq hb, u32_of_lt (by omega)]
  omega

theorem layout_header (buf : Mem) (hdr : Header) {i : ℕ} (hi : i < wsz) :
    layout buf wsz hdr bits tms tdi i = setHdr buf wsz hdr i := by
  unfold layout
  split_ifs
  · rw [memcpy_outside (by omega), memcpy_outside (by omega),
      storePairs_outside _ _ _ _ _ _ (Or.inl hi)]
  · rw [storePairs_outside _ _ _ _ _ _ (Or.inl hi)]

theorem layout_octet (buf : Mem) (hdr : Header) (h1 : 1 ≤ wsz) (hb : bits < 2 ^ 32) {k : ℕ}
    (hk : k < bytesCeil bits) :
    layout buf wsz hdr bits tms tdi (wsz + 2 * wsz * (k / wsz) + k % wsz) = tms k ∧
      layout buf wsz hdr bits tms tdi (wsz + 2 * wsz * (k / wsz) + wsz + k % wsz) = tdi k := by
  have hdiv := Nat.div_add_mod k wsz
  have hr := Nat.mod_lt k h1
  have hcdiv := Nat.div_add_mod (bytesCeil bits) wsz
  have hidx : 0 + wsz * (k / wsz) + k % wsz = k := by omega
  have hle : k / wsz ≤ bytesCeil bits / wsz := Nat.div_le_div_right hk.le
  unfold layout
  rw [wholeWords_eq hb, wholeWordBytes_eq hb, bytesLeft_eq hb]
  have e2 : 2 * (wsz * (bytesCeil bits / wsz)) = 2 * wsz * (bytesCeil bits / wsz) := by ring
  rcases Nat.lt_or_eq_of_le hle with hlt | heq
  · -- a whole word, stored by the loop and below the partial pair
    have hmul : wsz * (k / wsz) + wsz ≤ wsz * (bytesCeil bits / wsz) :=
      Nat.mul_le_mul_left wsz hlt
    have e1 : 2 * wsz * (k / wsz) = 2 * (wsz * (k / wsz)) := by ring
    have h := storePairs_word tms tdi 0 wsz (setHdr buf wsz hdr) hlt hr
    rw [hidx] at h
    split_ifs
    · rw [memcpy_outside (by omega), memcpy_outside (by omega), memcpy_outside (by omega),
        memcpy_outside (by omega)]
      exact h
    · exact h
  · -- the partial pair
    have hrlt : k % wsz < bytesCeil bits % wsz := by
      rw [heq] at hdiv
      omega
    rw [if_pos (by omega), heq, ← e2]
    rw [memcpy_outside (by omega), memcpy_inside hrlt, memcpy_inside hrlt]
    have e3 : k % wsz + wsz * (bytesCeil bits / wsz) = k := by
      rw [← heq]
      omega
    rw [e3]
    exact ⟨rfl, rfl⟩

end Layout

open AxisToJtag AxisToJtagPkg

/-- The bits a message carries by the stream format: a header word with the length
minus one, then alternating TMS and TDI words. -/
def decode (wsz : ℕ) (msg : List Byte) : List (Bool × Bool) :=
  match wordsOf wsz msg with
  | [] => []
  | hdr :: payload => vecBits ((AxisToJtagPkg.getLen hdr).toNat + 1) (pairs payload)

theorem getD_pairs {W : ℕ} (ws : List (BitVec W)) {j : ℕ} (h : 2 * j + 1 < ws.length) :
    (pairs ws).getD j (0, 0) = (ws.getD (2 * j) 0, ws.getD (2 * j + 1) 0) := by
  induction ws using pairs.induct generalizing j with
  | case1 tms tdi rest ih =>
    cases j with
    | zero => rfl
    | succ j =>
      rw [pairs]
      have hj : 2 * j + 1 < rest.length := by
        simp only [List.length_cons] at h
        omega
      exact ih hj
  | case2 ws hws =>
    cases ws with
    | nil => simp at h
    | cons w ws =>
      cases ws with
      | nil => simp at h
      | cons w' ws => exact absurd rfl (hws w w' ws)

section Message

variable (d : Drv) (tms tdi : Mem) {bits : ℕ}

theorem shiftMsg_length : (d.shiftMsg bits tms tdi).length = bytesTot d.wordSize bits :=
  slice_length _ _ _

theorem getD_shiftMsg {i : ℕ} (hi : i < bytesTot d.wordSize bits) :
    (d.shiftMsg bits tms tdi).getD i 0 =
      layout d.txBuf d.wordSize (mkShift (newXid d.xid) bits) bits tms tdi i := by
  rw [Drv.shiftMsg, getD_slice _ _ hi, Nat.zero_add]

variable (h4 : 4 ≤ d.wordSize) (h16 : d.wordSize ≤ 16) (hb : bits < 2 ^ 32)

include h4 h16 hb

theorem wordSize_le_bytesTot : d.wordSize ≤ bytesTot d.wordSize bits := by
  rw [bytesTot_eq_msgOctets (by omega) h16 hb, msgOctets]
  omega

theorem take_shiftMsg : (d.shiftMsg bits tms tdi).take d.wordSize =
    slice (setHdr d.txBuf d.wordSize (mkShift (newXid d.xid) bits)) 0 d.wordSize := by
  have hle := wordSize_le_bytesTot d h4 h16 hb
  apply List.ext_getElem
  · simp [shiftMsg_length, hle]
  · intro i hi hi'
    have hw : i < d.wordSize := by simpa using hi'
    simp [Drv.shiftMsg, slice, layout_header _ _ _ _ hw]

theorem getHdr_shiftMsg : getHdr (d.shiftMsg bits tms tdi) = mkShift (newXid d.xid) bits := by
  have hle := wordSize_le_bytesTot d h4 h16 hb
  refine getHdr_slice (by omega) fun i hi => ?_
  rw [layout_header _ _ _ _ (by omega), setHdr_low _ _ _ hi]

/-- The words of a message: the zero-extended header, then a pair of words for every
`wsz` octets of the vectors. -/
theorem wordsOf_shiftMsg :
    wordsOf d.wordSize (d.shiftMsg bits tms tdi) =
      (mkShift (newXid d.xid) bits).setWidth (8 * d.wordSize) ::
        (wordsOf d.wordSize (d.shiftMsg bits tms tdi)).tail ∧
    (wordsOf d.wordSize (d.shiftMsg bits tms tdi)).length =
      1 + 2 * ((bytesCeil bits + d.wordSize - 1) / d.wordSize) := by
  have hw : 0 < d.wordSize := by omega
  have hlen : (wordsOf d.wordSize (d.shiftMsg bits tms tdi)).length =
      1 + 2 * ((bytesCeil bits + d.wordSize - 1) / d.wordSize) := by
    rw [wordsOf_length, shiftMsg_length, bytesTot_eq_msgOctets (by omega) h16 hb, msgOctets]
    set c := (bytesCeil bits + d.wordSize - 1) / d.wordSize
    have he : d.wordSize + 2 * (c * d.wordSize) + d.wordSize - 1 =
        d.wordSize * (1 + 2 * c) + (d.wordSize - 1) := by
      have : d.wordSize * (1 + 2 * c) = d.wordSize + 2 * (c * d.wordSize) := by ring
      omega
    rw [he, Nat.mul_add_div hw, Nat.div_eq_of_lt (by omega), Nat.add_zero]
  refine ⟨?_, hlen⟩
  have hhead : (wordsOf d.wordSize (d.shiftMsg bits tms tdi)).head? =
      some ((mkShift (newXid d.xid) bits).setWidth (8 * d.wordSize)) := by
    have h0 : 0 < ((d.shiftMsg bits tms tdi).length + d.wordSize - 1) / d.wordSize := by
      rw [← wordsOf_length, hlen]
      omega
    rw [← packLE_setHdr d.txBuf h4 h16, ← take_shiftMsg d tms tdi h4 h16 hb]
    obtain ⟨n, hn⟩ := Nat.exists_eq_succ_of_ne_zero (Nat.pos_iff_ne_zero.mp h0)
    simp [wordsOf, hn, List.range_succ_eq_map]
  cases hws : wordsOf d.wordSize (d.shiftMsg bits tms tdi) with
  | nil => simp [hws] at hhead
  | cons w ws =>
    rw [hws] at hhead
    simp only [List.head?_cons, Option.some.injEq] at hhead
    rw [hhead]
    rfl

theorem payload_bit {i : ℕ} (hi : i < bits) :
    (((wordsOf d.wordSize (d.shiftMsg bits tms tdi)).tail.getD (2 * (i / (8 * d.wordSize))) 0
      ).getLsbD (i % (8 * d.wordSize)) = memBit tms i) ∧
    (((wordsOf d.wordSize (d.shiftMsg bits tms tdi)).tail.getD (2 * (i / (8 * d.wordSize)) + 1) 0
      ).getLsbD (i % (8 * d.wordSize)) = memBit tdi i) := by
  have hw : 0 < d.wordSize := by omega
  have hk : i / 8 < bytesCeil bits := by unfold bytesCeil; omega
  have hoct := layout_octet tms tdi d.txBuf (mkShift (newXid d.xid) bits)
    (by omega : 1 ≤ d.wordSize) hb hk
  -- the position of the bit, by words and by octets
  have hj : i / (8 * d.wordSize) = i / 8 / d.wordSize := (Nat.div_div_eq_div_mul i 8 _).symm
  have hr : i % (8 * d.wordSize) = 8 * (i / 8 % d.wordSize) + i % 8 := by
    rw [Nat.mod_mul]
    omega
  have hr1 : (8 * (i / 8 % d.wordSize) + i % 8) / 8 = i / 8 % d.wordSize := by omega
  have hr2 : (8 * (i / 8 % d.wordSize) + i % 8) % 8 = i % 8 := by omega
  have hrlt := Nat.mod_lt (i / 8) hw
  rw [hj, hr]
  set j := i / 8 / d.wordSize
  set r := i / 8 % d.wordSize
  have hjlt : j + 1 ≤ (bytesCeil bits + d.wordSize - 1) / d.wordSize := by
    rw [Nat.le_div_iff_mul_le hw, Nat.add_mul]
    have hle : j * d.wordSize ≤ i / 8 := Nat.div_mul_le_self _ _
    omega
  have hmul := Nat.mul_le_mul_right d.wordSize hjlt
  have htot : bytesTot d.wordSize bits =
      d.wordSize + 2 * ((bytesCeil bits + d.wordSize - 1) / d.wordSize * d.wordSize) :=
    bytesTot_eq_msgOctets (by omega) h16 hb
  have e0 : (j + 1) * d.wordSize = j * d.wordSize + d.wordSize := by ring
  have e1 : (2 * j + 1) * d.wordSize = d.wordSize + 2 * (j * d.wordSize) := by ring
  have e2 : (2 * j + 1 + 1) * d.wordSize = d.wordSize + 2 * (j * d.wordSize) + d.wordSize := by
    ring
  have e3 : 2 * d.wordSize * j = 2 * (j * d.wordSize) := by ring
  rw [e3] at hoct
  -- word `n` of the payload is word `n + 1` of the message
  have htail : ∀ n, (wordsOf d.wordSize (d.shiftMsg bits tms tdi)).tail.getD n 0 =
      (wordsOf d.wordSize (d.shiftMsg bits tms tdi)).getD (n + 1) 0 := by
    intro n
    simp [List.getD]
  rw [htail, htail]
  constructor
  · rw [getLsbD_getD_wordsOf _ (by rw [shiftMsg_length]; omega) (by omega), hr1, hr2,
      getD_shiftMsg d tms tdi (by omega), e1, hoct.1]
    rfl
  · rw [getLsbD_getD_wordsOf _ (by rw [shiftMsg_length]; omega) (by omega), hr1, hr2,
      getD_shiftMsg d tms tdi (by omega), e2, hoct.2]
    rfl

theorem decode_shiftMsg (h1 : 1 ≤ bits) (h20 : bits ≤ 2 ^ 20) :
    decode d.wordSize (d.shiftMsg bits tms tdi) =
      (List.range bits).map fun i => (memBit tms i, memBit tdi i) := by
  obtain ⟨hcons, hlen⟩ := wordsOf_shiftMsg d tms tdi h4 h16 hb
  have hW : 32 ≤ 8 * d.wordSize := by omega
  have hgl :
      (AxisToJtagPkg.getLen ((mkShift (newXid d.xid) bits).setWidth (8 * d.wordSize))).toNat + 1 =
      bits := by
    rw [AxisToJtagPkg.getLen, extractLsb'_setWidth_high _ hW (by decide), ← AxisToJtagPkg.getLen,
      getLen_mkShift _ h1 hb, Nat.mod_eq_of_lt (by omega)]
    omega
  rw [decode, hcons]
  dsimp only
  rw [hgl, vecBits]
  apply List.map_congr_left
  intro i hi
  have hlt := List.mem_range.mp hi
  have hbit := payload_bit d tms tdi h4 h16 hb hlt
  have hj : i / (8 * d.wordSize) < (bytesCeil bits + d.wordSize - 1) / d.wordSize := by
    rw [← Nat.div_div_eq_div_mul, Nat.lt_div_iff_mul_lt (by omega)]
    have := Nat.div_mul_le_self (i / 8) d.wordSize
    unfold bytesCeil
    omega
  rw [getD_pairs _ (by simp [hlen]; omega)]
  exact Prod.ext hbit.1 hbit.2

end Message

end XvcSupport.JtagDriver

namespace XvcSupport.XvcConn

open JtagDriver

/-- The transport to a target that answers every message with its header word and as
many TDO octets as one vector of the message has; `tdo` gives the TDO vector from the
messages up to this one. -/
def answer (wsz : ℕ) (tdo : List (List Byte) → Mem) : Exchange (List (List Byte)) :=
  fun sent msg =>
    (.ok (msg.take wsz ++ slice (tdo (sent ++ [msg])) 0 ((msg.length - wsz) / 2)), sent ++ [msg])

/-- The octets of the TDO vectors that answer a sequence of messages, one after the
other. -/
def tdoOctets (wsz : ℕ) (tdo : List (List Byte) → Mem) (sent : List (List Byte)) : List Byte :=
  (List.range sent.length).flatMap fun k =>
    slice (tdo (sent.take (k + 1))) 0 (bytesCeil (decode wsz (sent.getD k [])).length)

def tdoBits (wsz : ℕ) (tdo : List (List Byte) → Mem) (sent : List (List Byte)) : List Bool :=
  (List.range sent.length).flatMap fun k =>
    (List.range (decode wsz (sent.getD k [])).length).map (memBit (tdo (sent.take (k + 1))))

theorem flatMap_range_snoc {α β : Type*} (f : List α → α → List β) (xs : List α)
    (x d : α) :
    ((List.range (xs ++ [x]).length).flatMap fun k =>
        f ((xs ++ [x]).take (k + 1)) ((xs ++ [x]).getD k d)) =
      ((List.range xs.length).flatMap fun k => f (xs.take (k + 1)) (xs.getD k d)) ++
        f (xs ++ [x]) x := by
  rw [List.length_append, List.length_singleton, List.range_succ, List.flatMap_append]
  congr 1
  · apply List.flatMap_congr
    intro k hk
    have hlt := List.mem_range.mp hk
    rw [List.take_append_of_le_length (by omega), List.getD_append _ _ _ _ hlt]
  · have htake : (xs ++ [x]).take (xs.length + 1) = xs ++ [x] :=
      List.take_of_length_le (by simp)
    simp [List.getD, htake]

section Send

variable (tdo : List (List Byte) → Mem) {l : Link (List (List Byte))} {bits : ℕ}
  (h4 : 4 ≤ l.drv.wordSize) (h16 : l.drv.wordSize ≤ 16) (h1 : 1 ≤ bits) (h20 : bits ≤ 2 ^ 20)

include h4 h16 h1 h20

theorem sendVectors_answer (tms tdi : Mem) (p : ℕ) :
    sendVectors (answer l.drv.wordSize tdo) bits tms tdi p l =
      (none, { drv := l.drv.afterShift bits tms tdi
               tdo := memcpy l.tdo p (tdo (l.net ++ [l.drv.shiftMsg bits tms tdi])) 0
                 (bytesCeil bits)
               net := l.net ++ [l.drv.shiftMsg bits tms tdi] }) := by
  set msg := l.drv.shiftMsg bits tms tdi with hmsg
  have hb : bits < 2 ^ 32 := by omega
  have hc : bytesCeil bits ≤ 2 ^ 17 := by unfold bytesCeil; omega
  have hhdr : getHdr msg = mkShift (newXid l.drv.xid) bits :=
    getHdr_shiftMsg l.drv tms tdi h4 h16 hb
  have hlen : msg.length = l.drv.wordSize +
      2 * ((bytesCeil bits + l.drv.wordSize - 1) / l.drv.wordSize * l.drv.wordSize) := by
    rw [hmsg, shiftMsg_length, bytesTot_eq_msgOctets (by omega) h16 hb, msgOctets]
  have hceil := le_ceil_mul (by omega : 0 < l.drv.wordSize) (bytesCeil bits)
  set reply := msg.take l.drv.wordSize ++
    slice (tdo (l.net ++ [msg])) 0 ((msg.length - l.drv.wordSize) / 2) with hreply
  have htake : (msg.take l.drv.wordSize).length = l.drv.wordSize := by
    rw [List.length_take]
    omega
  have hrlen : ¬ reply.length < l.drv.wordSize := by
    rw [hreply, List.length_append, htake]
    omega
  have hrhdr : getHdr reply = mkShift (newXid l.drv.xid) bits := by
    rw [← hhdr, getHdr, getHdr, hreply, List.take_append_of_le_length (by omega),
      List.take_take, min_eq_left h4]
  -- the reply has the header of the message, which is no error
  have hcmd : getCmd (getHdr reply) ≠ cmdE := by
    intro h
    rw [hrhdr] at h
    have hb28 := congrArg (fun v => BitVec.getLsbD v 28) h
    have hm := getLsbD_mkShift_high (newXid l.drv.xid) h1 h20 (by decide : 20 ≤ 28) (by decide)
    simp only [getCmd, BitVec.getLsbD_and, hm] at hb28
    exact absurd hb28 (by simp [cmdMask, cmdE])
  have hjudge : judge (getXid (getHdr msg)) (getHdr reply) = .accept := by
    have herr : getErr (getHdr reply) = 0 := by rw [getErr, if_pos hcmd]
    rw [judge, herr, hhdr, hrhdr]
    simp
  -- no more is copied than was asked for, although the reply is padded to whole words
  have hmem : memcpy l.tdo p (memOf (reply.drop l.drv.wordSize)) 0
      (min (u32 (bytesCeil bits)) (reply.length - l.drv.wordSize)) =
      memcpy l.tdo p (tdo (l.net ++ [msg])) 0 (bytesCeil bits) := by
    have hmin : min (u32 (bytesCeil bits)) (reply.length - l.drv.wordSize) = bytesCeil bits := by
      rw [u32_of_lt (by omega), hreply, List.length_append, htake, slice_length]
      omega
    have hdrop : reply.drop l.drv.wordSize =
        slice (tdo (l.net ++ [msg])) 0 ((msg.length - l.drv.wordSize) / 2) := by
      rw [hreply, List.drop_append_of_le_length htake.ge, List.drop_eq_nil_of_le htake.le,
        List.nil_append]
    rw [hmin, hdrop]
    funext i
    unfold memcpy
    split_ifs with hi
    · rw [memOf, getD_slice _ _ (by omega), Nat.zero_add]
    · rfl
  simp only [sendVectors, ← hmsg, xferRel, xfer, answer, ← hreply, storeReply, hrlen, if_false,
    hjudge, hmem]

end Send

section Loop

variable (wsz sup bits : ℕ) (tms tdi : Mem) (tdo : List (List Byte) → Mem)

def sendChunk (l : Link (List (List Byte))) (bitsSent off : ℕ) :
    Option Err × Link (List (List Byte)) :=
  sendVectors (answer wsz tdo) bitsSent (fun i => tms (off + i)) (fun i => tdi (off + i)) off l

/-- The shift branch of `run`. -/
def shiftRequest (maxVecLen rounds : ℕ) (l : Link (List (List Byte))) :
    Progress × Link (List (List Byte)) :=
  if vecBytes bits > maxVecLen then
    (.threw (.protoErr "Requested bit vector length too big"), l)
  else shift (sendChunk wsz tms tdi tdo) sup rounds bits l

/-- What the messages and the TDO buffer hold once `n` bits are through. -/
structure Through (n : ℕ) (l : Link (List (List Byte))) : Prop where
  wordSize : l.drv.wordSize = wsz
  sent : l.net.flatMap (decode wsz) = (List.range n).map fun i => (memBit tms i, memBit tdi i)
  short : ∀ m ∈ l.net, (decode wsz m).length ≤ 8 * sup
  octets : slice l.tdo 0 (bytesCeil n) = tdoOctets wsz tdo l.net
  tdoBits : (List.range n).map (memBit l.tdo) = tdoBits wsz tdo l.net

variable {wsz sup bits tms tdi tdo}

theorem memBit_shifted (m : Mem) (off i : ℕ) :
    memBit (fun i => m (off + i)) i = memBit m (8 * off + i) := by
  have h1 : (8 * off + i) / 8 = off + i / 8 := by omega
  have h2 : (8 * off + i) % 8 = i % 8 := by omega
  simp only [memBit, h1, h2]

theorem Through.send {off n : ℕ} {l : Link (List (List Byte))} (h4 : 4 ≤ wsz) (h16 : wsz ≤ 16)
    (h : Through wsz sup tms tdi tdo (8 * off) l) (h1 : 1 ≤ n) (h20 : n ≤ 2 ^ 20)
    (hn : n ≤ 8 * sup) :
    (sendChunk wsz tms tdi tdo l n off).1 = none ∧
      Through wsz sup tms tdi tdo (8 * off + n) (sendChunk wsz tms tdi tdo l n off).2 := by
  obtain ⟨hw, hsent, hshort, hoct, hbit⟩ := h
  subst hw
  have hdec := decode_shiftMsg l.drv (fun i => tms (off + i)) (fun i => tdi (off + i)) h4 h16
    (by omega) h1 h20
  rw [sendChunk, sendVectors_answer tdo h4 h16 h1 h20]
  set msg := l.drv.shiftMsg n (fun i => tms (off + i)) (fun i => tdi (off + i)) with hmsg
  have hdlen : (decode l.drv.wordSize msg).length = n := by
    rw [hdec]
    simp
  have hceil : bytesCeil (8 * off + n) = off + bytesCeil n := by unfold bytesCeil; omega
  have hceil0 : bytesCeil (8 * off) = off := by unfold bytesCeil; omega
  rw [hceil0] at hoct
  refine ⟨rfl, rfl, ?_, ?_, ?_, ?_⟩
  · -- the vectors
    rw [List.flatMap_append, hsent, List.range_add, List.map_append]
    simp only [List.flatMap_cons, List.flatMap_nil, List.append_nil, hdec, List.map_map]
    congr 1
    apply List.map_congr_left
    intro i _
    exact Prod.ext (memBit_shifted tms off i) (memBit_shifted tdi off i)
  -- the lengths
  · intro m hm
    rcases List.mem_append.mp hm with hm | hm
    · exact hshort m hm
    · rw [List.mem_singleton.mp hm, hdlen]
      exact hn
  -- the octets of TDO: those from before this call lie below `off`
  · rw [tdoOctets, flatMap_range_snoc (fun ms m => slice (tdo ms) 0
      (bytesCeil (decode l.drv.wordSize m).length)), ← tdoOctets, ← hoct, hdlen, hceil]
    simp only [slice, List.range_add, List.map_append, List.map_map]
    congr 1
    · apply List.map_congr_left
      intro i hi
      have hlt := List.mem_range.mp hi
      exact memcpy_outside (Or.inl (by omega))
    · apply List.map_congr_left
      intro i hi
      have hlt := List.mem_range.mp hi
      simp only [Function.comp_apply, Nat.zero_add]
      rw [memcpy_inside hlt, Nat.add_zero]
  -- the bits of TDO, likewise
  · rw [XvcConn.tdoBits, flatMap_range_snoc (fun ms m =>
      (List.range (decode l.drv.wordSize m).length).map (memBit (tdo ms))), ← XvcConn.tdoBits,
      ← hbit, hdlen]
    simp only [List.range_add, List.map_append, List.map_map]
    congr 1
    · apply List.map_congr_left
      intro i hi
      have hlt := List.mem_range.mp hi
      rw [memBit, memBit, memcpy_outside (Or.inl (by omega))]
    · apply List.map_congr_left
      intro i hi
      have hlt := List.mem_range.mp hi
      have hq : i / 8 < bytesCeil n := by unfold bytesCeil; omega
      rw [Function.comp_apply, ← memBit_shifted, memBit, memcpy_inside hq, Nat.add_zero]
      rfl

theorem Through.loop {v : ℕ} (h4 : 4 ≤ wsz) (h16 : wsz ≤ 16) (hv : 1 ≤ v) (hvs : v ≤ sup)
    (hv17 : v ≤ 2 ^ 17) (rounds off left : ℕ) (l : Link (List (List Byte))) (hr : left < rounds)
    (h : Through wsz sup tms tdi tdo (8 * off) l) :
    ∃ l', shiftLoop (sendChunk wsz tms tdi tdo) v rounds off left l = (.returned, l') ∧
      Through wsz sup tms tdi tdo (8 * off + left) l' := by
  induction rounds generalizing off left l with
  | zero => omega
  | succ rounds ih =>
    rw [shiftLoop]
    split_ifs with h0
    · exact ⟨l, rfl, by rwa [h0]⟩
    have hpos := bitsSent_pos hv (by omega) (Nat.pos_of_ne_zero h0)
    have hle := bitsSent_le v left
    have hu : u32 (8 * v) = 8 * v := u32_of_lt (by omega)
    obtain ⟨hok, hthrough⟩ := h.send h4 h16 (n := bitsSent v left) hpos (by omega) (by omega)
    cases hcall : sendChunk wsz tms tdi tdo l (bitsSent v left) off with
    | mk e l1 =>
      rw [hcall] at hok hthrough
      simp only at hok hthrough ⊢
      rw [hok]
      by_cases hlast : bitsSent v left = left
      · -- the last chunk: nothing is left for the next round
        rw [hlast, Nat.sub_self]
        obtain ⟨r, hr'⟩ := Nat.exists_eq_succ_of_ne_zero (by omega : rounds ≠ 0)
        rw [hlast] at hthrough
        refine ⟨l1, ?_, hthrough⟩
        subst hr'
        simp [shiftLoop]
      -- a chunk that is not the last one is full, and the next starts `v` octets on
      · have hfull : bitsSent v left = 8 * v := by
          unfold bitsSent at hlast ⊢
          rw [hu] at hlast ⊢
          split_ifs at hlast ⊢ with hs
          · exact absurd rfl hlast
          · rfl
        rw [hfull] at hthrough ⊢
        rw [← Nat.mul_add] at hthrough
        obtain ⟨l', hret, hfin⟩ := ih (off + v) (left - 8 * v) l1 (by omega) hthrough
        refine ⟨l', hret, ?_⟩
        have he : 8 * (off + v) + (left - 8 * v) = 8 * off + left := by omega
        rwa [he] at hfin

end Loop

theorem shiftLoop_zero_ne_returned {σ : Type*} (send : σ → ℕ → ℕ → Option Err × σ)
    (rounds off left : ℕ) (s : σ) (hl : 0 < left) :
    (shiftLoop send 0 rounds off left s).1 ≠ .returned := by
  induction rounds generalizing off s with
  | zero => simp [shiftLoop]
  | succ rounds ih =>
    have hz : bitsSent 0 left = 0 := Nat.le_zero.mp (bitsSent_le 0 left).1
    rw [shiftLoop, if_neg (Nat.pos_iff_ne_zero.mp hl), hz]
    cases hcall : send s 0 off with
    | mk e s1 =>
      cases e with
      | some e => simp
      | none => exact ih _ _

/-- The request is carried without loss: the loop returns, the messages decode to the
first `bits` bits of both vectors, none is longer than a chunk, and the octets sent
back are those of the TDO vectors, one after the other. -/
def CarriesAll (wsz maxVecLen sup bits : ℕ) (tms tdi : Mem) (tdo : List (List Byte) → Mem)
    (l : Link (List (List Byte))) : Prop :=
  ∃ rounds l', shiftRequest wsz sup bits tms tdi tdo maxVecLen rounds l = (.returned, l') ∧
    l'.net.flatMap (decode wsz) = ((List.range bits).map fun i => (memBit tms i, memBit tdi i)) ∧
    (∀ m ∈ l'.net, (decode wsz m).length ≤ 8 * sup) ∧
    vecBytes bits = (bits + 7) / 8 ∧
    slice l'.tdo 0 (vecBytes bits) = tdoOctets wsz tdo l'.net ∧
    (List.range bits).map (memBit l'.tdo) = tdoBits wsz tdo l'.net

/-- Chunking and re-formatting lose no bit of a request exactly when the 32-bit sum
`bits + 7` does not wrap around. -/
theorem request_carried_iff (wsz maxVecLen sup bits : ℕ) (tms tdi : Mem)
    (tdo : List (List Byte) → Mem) (d : Drv) (txb : Mem) (hw : d.wordSize = wsz) (h4 : 4 ≤ wsz)
    (h16 : wsz ≤ 16) (hs1 : 1 ≤ sup) (hs2 : sup ≤ 131072) (h1 : 1 ≤ bits) (h32 : bits < 2 ^ 32)
    (hmax : bits ≤ 8 * maxVecLen) :
    CarriesAll wsz maxVecLen sup bits tms tdi tdo ⟨d, txb, []⟩ ↔ bits ≤ 0xFFFFFFF8 := by
  constructor
  · rintro ⟨rounds, l', hret, -⟩
    by_contra hcon
    have hz : vecBytes bits = 0 := by
      unfold vecBytes u32
      omega
    rw [shiftRequest, if_neg (by omega), shift, hz, vecLen, if_neg (by omega)] at hret
    exact shiftLoop_zero_ne_returned _ rounds 0 bits _ h1 (by rw [hret])
  · intro hle
    have hv := vecBytes_eq hle
    have hc : bytesCeil bits = (bits + 7) / 8 := rfl
    have hvl : 1 ≤ vecLen (vecBytes bits) sup ∧ vecLen (vecBytes bits) sup ≤ sup := by
      unfold vecLen
      split_ifs <;> omega
    have h0 : Through wsz sup tms tdi tdo (8 * 0) (⟨d, txb, []⟩ : Link (List (List Byte))) :=
      ⟨hw, rfl, by simp, rfl, rfl⟩
    obtain ⟨l', hret, hthrough⟩ := h0.loop h4 h16 hvl.1 hvl.2 (by omega) (bits + 1) 0 bits _
      (by omega)
    rw [Nat.mul_zero, Nat.zero_add] at hthrough
    refine ⟨bits + 1, l', ?_, hthrough.sent, hthrough.short, hv.trans hc, ?_, hthrough.tdoBits⟩
    · rw [shiftRequest, if_neg (by omega), shift]
      exact hret
    · rw [hv]
      exact hthrough.octets

theorem request_carried_ten_bits :
    CarriesAll 4 32768 1 10 (memOf [0x5a, 0x01]) (memOf [0xc3, 0x02]) (fun _ => memOf [0xff, 0x03])
      ⟨Drv.new (fun _ => 0) 7, fun _ => 0, []⟩ ↔ 10 ≤ 0xFFFFFFF8 :=
  request_carried_iff 4 32768 1 10 _ _ _ (Drv.new (fun _ => 0) 7) (fun _ => 0) rfl (by decide)
    (by decide) (by decide) (by decide) (by decide) (by decide) (by decide)

/-- With `-M 0x20000000` a request of 0xFFFFFFF9 bits is accepted as one of no octets, and
the loop sends empty chunks for ever. -/
theorem wrapped_request_never_returns :
    ¬ CarriesAll 4 0x20000000 131072 0xFFFFFFF9 (fun _ => 0) (fun _ => 0) (fun _ _ => 0)
      ⟨Drv.new (fun _ => 0) 0, fun _ => 0, []⟩ := by
  rintro ⟨rounds, l', hret, -⟩
  have hz : vecBytes 0xFFFFFFF9 = 0 := by decide
  rw [shiftRequest, if_neg (by decide), shift, hz, vecLen, if_neg (by decide)] at hret
  exact shiftLoop_zero_ne_returned _ rounds 0 0xFFFFFFF9 _ (by decide) (by rw [hret])

end XvcSupport.XvcConn
