import XvcSupport.Responses
import XvcSupport.Segmentation

/-!
# The service of a connection

A client's messages go through `XvcConn::run` and a driver to the TAP, and its replies come back.
However TCP cuts the stream and however the vectors are cut into chunks, a vector is clocked into
the TAP as it is and its TDO bits are the reply.  The buffers are as large as the messages here.
-/

namespace XvcSupport.XvcConn

open JtagDriver AxisToJtag

section Machine

variable {σ : Type*} (step : σ → DrvCall → Except Err (ℕ × List Byte) × σ)

def afterCalls (s : σ) (calls : List DrvCall) : σ := runFrom (fun s c => (step s c).2) s calls

/-- A driver with a state, as a function of the calls up to the present one. -/
def behaviour (s : σ) : Behaviour := fun calls =>
  match calls.getLast? with
  | none => .ok (0, [])
  | some c => (step (afterCalls step s calls.dropLast) c).1

variable {step}

theorem afterCalls_append (s : σ) (calls calls' : List DrvCall) :
    afterCalls step s (calls ++ calls') = afterCalls step (afterCalls step s calls) calls' :=
  runFrom_append ..

theorem afterCalls_snoc (s : σ) (calls : List DrvCall) (c : DrvCall) :
    afterCalls step s (calls ++ [c]) = (step (afterCalls step s calls) c).2 := by
  rw [afterCalls, runFrom_append]
  rfl

def Behaviour.Runs (drv : Behaviour) (step : σ → DrvCall → Except Err (ℕ × List Byte) × σ)
    (s : σ) : Prop :=
  ∀ calls c, drv (calls ++ [c]) = (step (afterCalls step s calls) c).1

theorem behaviour_runs (s : σ) : (behaviour step s).Runs step s := by
  intro calls c
  simp [behaviour]

theorem Tx.call_runs {drv : Behaviour} {s : σ} (h : drv.Runs step s) (t : Tx) (c : DrvCall) :
    t.call drv c =
      ((step (afterCalls step s t.calls) c).1, { t with calls := t.calls ++ [c] }) := by
  rw [Tx.call, h]

end Machine

def unknownPeriod : BitVec 32 := 0

/-- `setPeriodNs`; a period that the firmware has announced cannot be changed. -/
def setPeriodNs (periodNs requestedPeriod : BitVec 32) : BitVec 32 :=
  if requestedPeriod = 0 then periodNs
  else if unknownPeriod = periodNs then requestedPeriod
  else periodNs

inductive Message
  | getinfo
  | settck (period : BitVec 32)
  | shift (bits : ℕ) (tms tdi : Mem)

/-- The octets of a message; what fills the last octets of the vectors is up to the client. -/
def Message.octets : Message → List Byte
  | .getinfo => ascii "getinfo:"
  | .settck period => ascii "settck:" ++ unpackLE 4 period
  | .shift bits tms tdi => ascii "shift:" ++ unpackLE 4 (BitVec.ofNat 32 bits) ++
      slice tms 0 (bytesCeil bits) ++ slice tdi 0 (bytesCeil bits)

/-- The server takes the message. -/
def Message.Fits (maxVecLen : ℕ) : Message → Prop
  | .getinfo => True
  | .settck _ => True
  | .shift bits _ _ => bits ≤ 0xFFFFFFF8 ∧ bits ≤ 8 * maxVecLen

/-- The bits that a message has clocked into the TAP. -/
def Message.bits : Message → List (Bool × Bool)
  | .getinfo => []
  | .settck _ => []
  | .shift bits tms tdi => vectorBits tms tdi bits

def Message.edges (msg : Message) : List Edge := edgesOf msg.bits

/-- What the service is: the reply to a message, when the TAP has seen the edges `hist`. -/
def Message.reply (maxVecLen : ℕ) (periodNs : BitVec 32) (tap : Tap) (hist : List Edge) :
    Message → List Byte
  | .getinfo => ascii ("xvcServer_v1.0:" ++ toString maxVecLen ++ "\n")
  | .settck period => unpackLE 4 (setPeriodNs periodNs period)
  | .shift bits tms tdi => octetsOfBits (response tap hist (vectorBits tms tdi bits))

def replies (maxVecLen : ℕ) (periodNs : BitVec 32) (tap : Tap) :
    List Edge → List Message → List Byte
  | _, [] => []
  | hist, m :: ms => m.reply maxVecLen periodNs tap hist ++
      replies maxVecLen periodNs tap (hist ++ m.edges) ms

/-- The call returns `r` in a state with `P`, or it throws in one with `Q`. -/
def Outcome {ρ σ : Type*} (x : Except Err ρ × σ) (r : ρ) (P Q : σ → Prop) : Prop :=
  (∃ s, x = (.ok r, s) ∧ P s) ∨ ∃ e s, x = (.error e, s) ∧ Q s

theorem Outcome.and {ρ σ : Type*} {x : Except Err ρ × σ} {r : ρ} {P Q R : σ → Prop}
    (h : Outcome x r P Q) (hR : R x.2) : Outcome x r (fun s => P s ∧ R s) Q := by
  obtain ⟨s, rfl, hP⟩ | hthrows := h
  · exact Or.inl ⟨s, rfl, hP, hR⟩
  · exact Or.inr hthrows

/-- The code returns in a state with `P`, or it throws in one with `Q`. -/
def Goes {σ : Type*} (x : Progress × σ) (P Q : σ → Prop) : Prop :=
  (∃ s, x = (.returned, s) ∧ P s) ∨ ∃ e s, x = (.threw e, s) ∧ Q s

/-- A loop whose calls carry on from one bit to the next carries all bits, unless one throws. -/
theorem shiftLoop_carries {σ : Type*} {send : σ → ℕ → ℕ → Option Err × σ} {Q : ℕ → σ → Prop}
    {F : σ → Prop} {v total : ℕ} (hv : 1 ≤ v) (hlt : v < 2 ^ 29)
    (hsend : ∀ s off n, Q (8 * off) s → 8 * off + n ≤ total → 1 ≤ n → n ≤ 8 * v →
      (∃ s', send s n off = (none, s') ∧ Q (8 * off + n) s') ∨
        ∃ e s', send s n off = (some e, s') ∧ F s')
    (rounds off left : ℕ) (s : σ) (hr : left < rounds) (hlen : 8 * off + left = total)
    (h : Q (8 * off) s) : Goes (shiftLoop send v rounds off left s) (Q total) F := by
  induction rounds generalizing off left s with
  | zero => omega
  | succ rounds ih =>
    rw [shiftLoop]
    split_ifs with h0
    · exact Or.inl ⟨s, rfl, by rwa [← hlen, h0, Nat.add_zero]⟩
    have hpos := bitsSent_pos hv hlt (Nat.pos_of_ne_zero h0)
    have hle := bitsSent_le v left
    have hu : u32 (8 * v) = 8 * v := u32_of_lt (by omega)
    rcases hsend s off (bitsSent v left) h (by omega) hpos hle.1 with
      ⟨s', hcall, hs'⟩ | ⟨e, s', hcall, hF⟩
    · simp only [hcall]
      by_cases hlast : bitsSent v left = left
      · -- the last chunk: nothing is left for the next round
        obtain ⟨r, rfl⟩ := Nat.exists_eq_succ_of_ne_zero (by omega : rounds ≠ 0)
        rw [hlast, hlen] at hs'
        rw [hlast, Nat.sub_self]
        exact Or.inl ⟨s', by simp [shiftLoop], hs'⟩
      -- a chunk that is not the last one is full, and the next starts `v` octets on
      · have hfull : bitsSent v left = 8 * v := by
          unfold bitsSent at hlast ⊢
          rw [hu] at hlast ⊢
          split_ifs at hlast ⊢ with hs
          · exact absurd rfl hlast
          · rfl
        rw [hfull] at hs' hle ⊢
        rw [← Nat.mul_add] at hs'
        exact ih (off + v) (left - 8 * v) s' (by omega) (by omega) hs'
    · simp only [hcall]
      exact Or.inr ⟨e, s', rfl, hF⟩

theorem slice_memOf_append {xs : List Byte} (ys : List Byte) {p n : ℕ} (h : p + n ≤ xs.length) :
    slice (memOf (xs ++ ys)) p n = (xs.drop p).take n := by
  apply List.ext_getElem
  · rw [slice_length, List.length_take, List.length_drop]
    omega
  · intro i hi hi'
    have hlt : i < n := by simpa using hi
    have hget : memOf (xs ++ ys) (p + i) = xs.getD (p + i) 0 :=
      List.getD_append _ _ _ _ (by omega)
    simp only [slice, List.getElem_map, List.getElem_range, hget, List.getElem_take,
      List.getElem_drop]
    exact List.getD_eq_getElem _ _ (by omega)

theorem slice_memcpy_end (m : Mem) (p : ℕ) (bs : List Byte) :
    slice (memcpy m p (memOf bs) 0 bs.length) 0 (p + bs.length) = slice m 0 p ++ bs := by
  rw [slice, List.range_add, List.map_append, List.map_map]
  congr 1
  · apply List.map_congr_left
    intro i hi
    have hlt := List.mem_range.mp hi
    exact memcpy_outside (Or.inl (by omega))
  · apply List.ext_getElem (by simp)
    intro i hi hi'
    rw [List.getElem_map, List.getElem_range, Function.comp_apply, Nat.zero_add,
      memcpy_inside hi', memOf, Nat.add_zero, List.getD_eq_getElem _ _ hi']

theorem packLE_unpackLE (w : BitVec 32) : packLE 32 (unpackLE 4 w) = w := by
  apply BitVec.eq_of_getLsbD_eq
  intro i hi
  have hq : i / 8 < 4 := by omega
  have hm : i % 8 < 8 := by omega
  have hs : 8 * (i / 8) + i % 8 = i := by omega
  rw [getLsbD_packLE _ hi, List.getD_eq_getElem _ _ (by simpa using hq)]
  simp [unpackLE, hs, hm]

/-- A driver in front of the target `tap`, with the calls that a connection makes.  Once it has
been queried its state `Serves` the edges that the TAP has seen: it carries every vector of at most
`limit` octets that the target can store, or it throws and has `Stopped` after some of the bits. -/
structure Backend (tap : Tap) (σ : Type*) where
  step : σ → DrvCall → Except Err (ℕ × List Byte) × σ
  Fresh : σ → List Edge → Prop
  Serves : σ → List Edge → Prop
  Stopped : σ → List Edge → Prop
  tgtVecLen : ℕ
  maxVectorSize : ℕ
  periodNs : BitVec 32
  limit : ℕ
  limit_le : limit ≤ 2 ^ 17
  again : ∀ {s hist}, Serves s hist → Fresh s hist
  query : ∀ {s hist}, Fresh s hist →
    Outcome (step s .query) (tgtVecLen, []) (Serves · hist) (Stopped · hist)
  getMaxVectorSize : ∀ {s hist}, Serves s hist →
    step s .getMaxVectorSize = (.ok (maxVectorSize, []), s)
  setPeriodNs : ∀ {s hist}, Serves s hist → ∀ p,
    step s (.setPeriodNs p) = (.ok ((XvcConn.setPeriodNs periodNs p).toNat, []), s)
  sendVectors : ∀ {s hist}, Serves s hist → ∀ {bits : ℕ}, 1 ≤ bits → bits ≤ 8 * limit →
    tgtVecLen = 0 ∨ bits ≤ 8 * tgtVecLen → ∀ tms tdi : List Byte,
    let vec := vectorBits (memOf tms) (memOf tdi) bits
    Outcome (step s (.sendVectors bits tms tdi)) (0, octetsOfBits (response tap hist vec))
      (Serves · (hist ++ edgesOf vec))
      fun s' => ∃ part, part <+: vec ∧ Stopped s' (hist ++ edgesOf part)

section Carrying

variable {tap : Tap} {σ : Type} (B : Backend tap σ)

def Backend.keeping (P : σ → Prop)
    (hquery : ∀ {s hist}, B.Fresh s hist → P s → P (B.step s .query).2)
    (hsend : ∀ {s hist}, B.Serves s hist → ∀ {bits : ℕ}, 1 ≤ bits → bits ≤ 8 * B.limit →
      B.tgtVecLen = 0 ∨ bits ≤ 8 * B.tgtVecLen → ∀ tms tdi : List Byte, P s →
        P (B.step s (.sendVectors bits tms tdi)).2) : Backend tap σ where
  step := B.step
  Fresh s hist := B.Fresh s hist ∧ P s
  Serves s hist := B.Serves s hist ∧ P s
  Stopped := B.Stopped
  tgtVecLen := B.tgtVecLen
  maxVectorSize := B.maxVectorSize
  periodNs := B.periodNs
  limit := B.limit
  limit_le := B.limit_le
  again h := ⟨B.again h.1, h.2⟩
  query h := (B.query h.1).and (hquery h.1 h.2)
  getMaxVectorSize h := B.getMaxVectorSize h.1
  setPeriodNs h := B.setPeriodNs h.1
  sendVectors h _ h1 hlimit hmem tms tdi :=
    (B.sendVectors h.1 h1 hlimit hmem tms tdi).and (hsend h.1 h1 hlimit hmem tms tdi h.2)

/-- What the server cuts vectors to. -/
def Backend.supVecLen (maxVecLen : ℕ) : ℕ :=
  XvcConn.supVecLen maxVecLen B.tgtVecLen B.maxVectorSize

/-- The driver never throws. -/
def Backend.Reliable : Prop := ∀ s hist, ¬ B.Stopped s hist

/-- The driver once the connection has made its calls. -/
def Tx.port (s0 : σ) (t : Tx) : σ := afterCalls B.step s0 t.calls

variable {B} {s0 : σ} {hist : List Edge} {t : Tx} {cfg : Config} {sup : ℕ} {drv : Behaviour}
  (hdrv : drv.Runs B.step s0)

include hdrv in
theorem Tx.call_backend {c : DrvCall} {r : Except Err (ℕ × List Byte)} {s' : σ}
    (h : B.step (t.port B s0) c = (r, s')) :
    t.call drv c = (r, { t with calls := t.calls ++ [c] }) ∧
      Tx.port B s0 { t with calls := t.calls ++ [c] } = s' := by
  constructor
  · rw [Tx.call_runs hdrv]
    exact congrArg (fun x => (x.1, { t with calls := t.calls ++ [c] })) h
  · rw [Tx.port, afterCalls_snoc]
    exact congrArg Prod.snd h

/-- What the transmit side holds when `n` bits of a request are through. -/
structure Carried (B : Backend tap σ) (s0 : σ) (hist : List Edge) (tms tdi : Mem) (t : Tx) (n : ℕ)
    (t' : Tx) : Prop where
  serves : B.Serves (t'.port B s0) (hist ++ edgesOf (vectorBits tms tdi n))
  octets : slice t'.txb 0 (bytesCeil n) = octetsOfBits (response tap hist (vectorBits tms tdi n))
  sent : t'.sent = t.sent
  served : t'.served = t.served

/-- What is left when the driver has thrown within a message, after some of its bits. -/
structure Broken (B : Backend tap σ) (s0 : σ) (hist : List Edge) (bits : List (Bool × Bool))
    (t t' : Tx) : Prop where
  stopped : ∃ part, part <+: bits ∧ B.Stopped (t'.port B s0) (hist ++ edgesOf part)
  sent : t'.sent = t.sent
  served : t'.served = t.served

variable {tms tdi m : Mem} {bits : ℕ}

include hdrv in
theorem Carried.send {off n : ℕ} {t' : Tx} (h : Carried B s0 hist tms tdi t (8 * off) t')
    (hlen : 8 * off + n ≤ bits) (h1 : 1 ≤ n) (hlimit : n ≤ 8 * B.limit)
    (hmem : B.tgtVecLen = 0 ∨ n ≤ 8 * B.tgtVecLen) (htms : ∀ i < bytesCeil bits, m i = tms i)
    (htdi : ∀ i < bytesCeil bits, m (bytesCeil bits + i) = tdi i) :
    (∃ t'', Tx.sendVectors drv m (bytesCeil bits) t' n off = (none, t'') ∧
        Carried B s0 hist tms tdi t (8 * off + n) t'') ∨
      ∃ e t'', Tx.sendVectors drv m (bytesCeil bits) t' n off = (some e, t'') ∧
        Broken B s0 hist (vectorBits tms tdi bits) t t'' := by
  have hvec : vectorBits (memOf (slice m off (bytesCeil n)))
      (memOf (slice m (bytesCeil bits + off) (bytesCeil n))) n =
      vectorBits (fun i => tms (off + i)) (fun i => tdi (off + i)) n := by
    apply vectorBits_congr
    · intro i hi
      have hin : off + i < bytesCeil bits := by
        unfold bytesCeil at hi ⊢
        omega
      rw [memOf, getD_slice _ _ hi, htms _ hin]
    · intro i hi
      have hin : off + i < bytesCeil bits := by
        unfold bytesCeil at hi ⊢
        omega
      rw [memOf, getD_slice _ _ hi, Nat.add_assoc, htdi _ hin]
  have hcalled := B.sendVectors h.serves h1 hlimit hmem
    (slice m off (bytesCeil n)) (slice m (bytesCeil bits + off) (bytesCeil n))
  rw [hvec] at hcalled
  set chunk := vectorBits (fun i => tms (off + i)) (fun i => tdi (off + i)) n with hchunk
  rcases hcalled with ⟨s', hstep, hserves⟩ | ⟨e, s', hstep, part, hpart, hstopped⟩
  · obtain ⟨hcall, hport⟩ := Tx.call_backend hdrv hstep
    set tdo := octetsOfBits (response tap (hist ++ edgesOf (vectorBits tms tdi (8 * off)))
      chunk) with htdo
    have hceil : bytesCeil (8 * off + n) = off + tdo.length := by
      rw [htdo, octetsOfBits_length, response_length, hchunk, vectorBits_length]
      unfold bytesCeil
      omega
    have hceil0 : bytesCeil (8 * off) = off := by
      unfold bytesCeil
      omega
    have hoct := h.octets
    rw [hceil0] at hoct
    refine Or.inl ⟨{ t' with
      calls := t'.calls ++ [.sendVectors n (slice m off (bytesCeil n))
        (slice m (bytesCeil bits + off) (bytesCeil n))]
      txb := memcpy t'.txb off (memOf tdo) 0 tdo.length }, ?_, ?_, ?_, h.sent, h.served⟩
    · simp only [Tx.sendVectors, hcall]
    · rw [vectorBits_octets, edgesOf_append, ← List.append_assoc]
      rw [← hport] at hserves
      exact hserves
    · have hfull : (response tap hist (vectorBits tms tdi (8 * off))).length = 8 * off := by simp
      rw [hceil, slice_memcpy_end, hoct, vectorBits_octets, response_append,
        octetsOfBits_append hfull]
  · obtain ⟨hcall, hport⟩ := Tx.call_backend hdrv hstep
    refine Or.inr ⟨e, { t' with calls := t'.calls ++ [.sendVectors n (slice m off (bytesCeil n))
      (slice m (bytesCeil bits + off) (bytesCeil n))] }, ?_, ?_, h.sent, h.served⟩
    · simp only [Tx.sendVectors, hcall]
    -- the chunks before this one, and what has become of it
    · refine ⟨vectorBits tms tdi (8 * off) ++ part, ?_, ?_⟩
      · obtain ⟨k, rfl⟩ := Nat.exists_eq_add_of_le hlen
        apply ((List.prefix_append_right_inj _).mpr hpart).trans
        rw [vectorBits_add, vectorBits_octets]
        exact List.prefix_append _ _
      · rw [edgesOf_append, ← List.append_assoc]
        rw [← hport] at hstopped
        exact hstopped

include hdrv in
theorem Tx.shift_serves (h : B.Serves (t.port B s0) hist)
    (hsup : sup = B.supVecLen cfg.maxVecLen) (hchunk : min cfg.maxVecLen sup ≤ B.limit)
    (hbits : bits ≤ 0xFFFFFFF8) (hmax : bits ≤ 8 * cfg.maxVecLen)
    (htms : ∀ i < bytesCeil bits, m i = tms i)
    (htdi : ∀ i < bytesCeil bits, m (bytesCeil bits + i) = tdi i) :
    Goes (t.shift drv sup bits m)
      (fun t' => B.Serves (t'.port B s0) (hist ++ edgesOf (vectorBits tms tdi bits)) ∧
        slice t'.txb 0 t'.tl = octetsOfBits (response tap hist (vectorBits tms tdi bits)) ∧
        t'.sent = t.sent ∧ t'.served = t.served)
      (Broken B s0 hist (vectorBits tms tdi bits) t) := by
  have hbytes := vecBytes_eq hbits
  have h0 : Carried B s0 hist tms tdi t (8 * 0) t :=
    ⟨by simpa [vectorBits, edgesOf] using h, by simp [slice, vectorBits, octetsOfBits, bytesCeil],
      rfl, rfl⟩
  have hloop : Goes (XvcConn.shift (Tx.sendVectors drv m (vecBytes bits)) sup (bits + 1) bits t)
      (Carried B s0 hist tms tdi t bits) (Broken B s0 hist (vectorBits tms tdi bits) t) := by
    rcases Nat.eq_zero_or_pos bits with rfl | hpos
    · exact Or.inl ⟨t, rfl, h0⟩
    have hsup0 : 0 < sup := by
      rw [hsup, Backend.supVecLen]
      apply supVecLen_pos
      omega
    have hv : 1 ≤ vecLen (vecBytes bits) sup ∧ vecLen (vecBytes bits) sup ≤ sup ∧
        vecLen (vecBytes bits) sup ≤ B.limit := by
      unfold vecLen
      unfold bytesCeil at hbytes
      split_ifs <;> omega
    have hlt := B.limit_le
    rw [XvcConn.shift]
    refine shiftLoop_carries hv.1 (by omega) ?_ (bits + 1) 0 bits t (by omega) (by omega) h0
    intro t' off n hQ hle h1 hn
    rw [hbytes]
    refine hQ.send hdrv hle h1 (by omega) ?_ htms htdi
    -- the target's memory limits the chunks
    by_cases hd : B.tgtVecLen = 0
    · exact Or.inl hd
    have hle : sup ≤ B.tgtVecLen := by
      rw [hsup, Backend.supVecLen, supVecLen, if_neg hd]
      split_ifs <;> omega
    right
    omega
  rcases hloop with ⟨t', hret, hcarried⟩ | ⟨e, t', hthrew, hbroken⟩
  · refine Or.inl ⟨{ t' with tl := vecBytes bits }, ?_, hcarried.serves, ?_, hcarried.sent,
      hcarried.served⟩
    · rw [Tx.shift, hret]
    · rw [hbytes]
      exact hcarried.octets
  · exact Or.inr ⟨e, t', by rw [Tx.shift, hthrew], hbroken⟩

end Carrying

section Format

variable {cfg : Config} {drv : Behaviour} {sup : ℕ} {t t' : Tx} {rest : List Byte}

theorem andThen_drop {r : Progress × Plain} {p : Progress} {stream : List Byte} {k : ℕ}
    (h : r = andThen (p, (t', stream)) fun x => (.returned, Plain.drop k x))
    (hdrop : stream.drop k = rest) :
    ∃ s, r = (p, (t', s)) ∧ (p = .returned → s = rest) := by
  subst h
  cases p with
  | returned => exact ⟨rest, by rw [andThen, Plain.drop, hdrop], fun _ => rfl⟩
  | threw e => exact ⟨stream, rfl, by simp⟩
  | running => exact ⟨stream, rfl, by simp⟩
  | killed => exact ⟨stream, rfl, by simp⟩

variable (rest) in
theorem announced_octets {bits : ℕ} (tms tdi : Mem) (h32 : bits < 2 ^ 32) :
    announced (memOf ((Message.shift bits tms tdi).octets ++ rest)) = bits := by
  have hfield : slice (memOf ((Message.shift bits tms tdi).octets ++ rest)) 6 4 =
      unpackLE 4 (BitVec.ofNat 32 bits) := by
    rw [slice_memOf_append _ (by simp [Message.octets, ascii])]
    simp [Message.octets, ascii, unpackLE]
  rw [announced, hfield, packLE_unpackLE, BitVec.toNat_ofNat, Nat.mod_eq_of_lt h32]

variable (sup rest) in
/-- A message is taken off the stream unless its handler throws. -/
theorem Plain.message_getinfo {p : Progress} (h : t.getinfo drv cfg.maxVecLen = (p, t')) :
    ∃ s, Plain.message cfg drv sup (t, Message.getinfo.octets ++ rest) = (p, (t', s)) ∧
      (p = .returned → s = rest) := by
  have hlen : (ascii "getinfo:").length = 8 := by simp [ascii]
  have hhead : slice (memOf (ascii "getinfo:" ++ rest)) 0 2 = ascii "ge" := by
    rw [slice_memOf_append _ (by omega)]
    simp [ascii]
  have hdrop : (ascii "getinfo:" ++ rest).drop 8 = rest := by
    rw [← hlen, List.drop_left]
  have hmessage : Plain.message cfg drv sup (t, Message.getinfo.octets ++ rest) =
      andThen (p, (t', Message.getinfo.octets ++ rest))
        fun x => (.returned, Plain.drop 8 x) := by
    simp only [Plain.message, Plain.need, Message.octets, List.length_append, hlen, andThen, hhead,
      if_true, Plain.lift, h, if_neg (show ¬ 8 + rest.length < 2 by omega),
      if_neg (show ¬ 8 + rest.length < 8 by omega)]
  exact andThen_drop hmessage hdrop

variable (cfg sup) in
theorem Plain.message_settck {period : BitVec 32} {p : Progress}
    (h : t.settck drv (memOf ((Message.settck period).octets ++ rest)) = (p, t')) :
    ∃ s, Plain.message cfg drv sup (t, (Message.settck period).octets ++ rest) = (p, (t', s)) ∧
      (p = .returned → s = rest) := by
  have hlen : (Message.settck period).octets.length = 11 := by simp [Message.octets, ascii]
  have hhead : slice (memOf ((Message.settck period).octets ++ rest)) 0 2 = ascii "se" := by
    rw [slice_memOf_append _ (by omega)]
    simp [Message.octets, ascii]
  have hne : ascii "se" ≠ ascii "ge" := by simp [ascii]
  have hdrop : ((Message.settck period).octets ++ rest).drop 11 = rest := by
    rw [← hlen, List.drop_left]
  have hmessage : Plain.message cfg drv sup (t, (Message.settck period).octets ++ rest) =
      andThen (p, (t', (Message.settck period).octets ++ rest))
        fun x => (.returned, Plain.drop 11 x) := by
    simp only [Plain.message, Plain.need, List.length_append, hlen, andThen, hhead, hne, if_false,
      if_true, Plain.lift, h, if_neg (show ¬ 11 + rest.length < 2 by omega),
      if_neg (show ¬ 11 + rest.length < 11 by omega)]
  exact andThen_drop hmessage hdrop

theorem Plain.message_shift {bits : ℕ} {tms tdi : Mem} {p : Progress} (hbits : bits ≤ 0xFFFFFFF8)
    (hmax : bits ≤ 8 * cfg.maxVecLen)
    (h : t.shift drv sup bits (memOf (slice tms 0 (bytesCeil bits) ++
      slice tdi 0 (bytesCeil bits) ++ rest)) = (p, t')) :
    ∃ s, Plain.message cfg drv sup (t, (Message.shift bits tms tdi).octets ++ rest) =
        (p, (t', s)) ∧ (p = .returned → s = rest) := by
  have hbytes := vecBytes_eq hbits
  set payload := slice tms 0 (bytesCeil bits) ++ slice tdi 0 (bytesCeil bits) ++ rest with hpay
  have hlen : (Message.shift bits tms tdi).octets.length = 10 + 2 * bytesCeil bits := by
    simp [Message.octets, ascii]
    omega
  have hhead : slice (memOf ((Message.shift bits tms tdi).octets ++ rest)) 0 2 = ascii "sh" := by
    rw [slice_memOf_append _ (by omega)]
    simp [Message.octets, ascii]
  have hge : ascii "sh" ≠ ascii "ge" := by simp [ascii]
  have hse : ascii "sh" ≠ ascii "se" := by simp [ascii]
  have hcount := announced_octets rest tms tdi (by omega : bits < 2 ^ 32)
  have hdrop : ((Message.shift bits tms tdi).octets ++ rest).drop 10 = payload := by
    simp [Message.octets, ascii, unpackLE, hpay]
  have hrest : payload.drop (2 * bytesCeil bits) = rest := by
    rw [hpay, show 2 * bytesCeil bits =
      (slice tms 0 (bytesCeil bits) ++ slice tdi 0 (bytesCeil bits)).length by simp; omega,
      List.drop_left]
  have hbig : ¬ bytesCeil bits > cfg.maxVecLen := by
    unfold bytesCeil
    omega
  have hneed : ¬ payload.length < 2 * bytesCeil bits := by
    simp [hpay]
    omega
  have hmessage : Plain.message cfg drv sup (t, (Message.shift bits tms tdi).octets ++ rest) =
      andThen (p, (t', payload)) fun x => (.returned, Plain.drop (2 * bytesCeil bits) x) := by
    simp only [Plain.message, Plain.need, List.length_append, hlen, andThen, hhead, hge, hse,
      if_false, if_true, hcount, hbytes, hbig, Plain.drop, hdrop, hneed, Plain.lift, h,
      if_neg (show ¬ 10 + 2 * bytesCeil bits + rest.length < 2 by omega),
      if_neg (show ¬ 10 + 2 * bytesCeil bits + rest.length < 10 by omega)]
  exact andThen_drop hmessage hrest

end Format

section Serve

variable {tap : Tap} {σ : Type} {B : Backend tap σ} {s0 : σ} {hist : List Edge} {t : Tx}
  {cfg : Config} {sup : ℕ} {drv : Behaviour} (hdrv : drv.Runs B.step s0)

/-- What a message does to the connection. -/
structure Answered (B : Backend tap σ) (cfg : Config) (s0 : σ) (hist : List Edge) (msg : Message)
    (t t' : Tx) : Prop where
  serves : B.Serves (t'.port B s0) (hist ++ msg.edges)
  reply : slice t'.txb 0 t'.tl = msg.reply cfg.maxVecLen B.periodNs tap hist
  sent : t'.sent = t.sent
  served : t'.served = t.served

include hdrv

variable (cfg) in
theorem Tx.getinfo_serves (h : B.Serves (t.port B s0) hist) :
    Goes (t.getinfo drv cfg.maxVecLen) (Answered B cfg s0 hist .getinfo t)
      (Broken B s0 hist Message.getinfo.bits t) := by
  rcases B.query (B.again h) with ⟨s', hstep, hserves⟩ | ⟨e, s', hstep, hstopped⟩
  · obtain ⟨hcall, hport⟩ := Tx.call_backend hdrv hstep
    rw [← hport] at hserves
    set text := "xvcServer_v1.0:" ++ toString cfg.maxVecLen ++ "\n" with htext
    refine Or.inl ⟨Tx.print { t with calls := t.calls ++ [.query] } text, ?_, ?_, ?_, rfl, rfl⟩
    · simp only [Tx.getinfo, hcall, htext]
    · have hedges : hist ++ Message.getinfo.edges = hist := List.append_nil _
      rw [hedges]
      exact hserves
    · -- the terminating zero is not sent
      have hend := slice_memcpy_end t.txb 0 (ascii text ++ [0])
      rw [Nat.zero_add, List.length_append, List.length_singleton, slice, List.range_succ,
        List.map_append, List.map_singleton, slice, List.range_zero, List.map_nil,
        List.nil_append] at hend
      exact (List.append_inj hend (by simp)).1
  · obtain ⟨hcall, hport⟩ := Tx.call_backend hdrv hstep
    rw [← hport] at hstopped
    refine Or.inr ⟨e, { t with calls := t.calls ++ [.query] }, ?_, ?_, rfl, rfl⟩
    · simp only [Tx.getinfo, hcall]
    · exact ⟨[], List.nil_prefix, by simpa [edgesOf] using hstopped⟩

variable (cfg) in
theorem Tx.settck_serves (h : B.Serves (t.port B s0) hist)
    (period : BitVec 32) {m : Mem} (hm : slice m 7 4 = unpackLE 4 period) :
    ∃ t', t.settck drv m = (.returned, t') ∧
      Answered B cfg s0 hist (.settck period) t t' := by
  obtain ⟨hcall, hport⟩ := Tx.call_backend hdrv (B.setPeriodNs h period)
  set newPeriod := setPeriodNs B.periodNs period
  refine ⟨{ t with
    calls := t.calls ++ [.setPeriodNs period]
    txb := memcpy t.txb 0 (memOf (unpackLE 4 newPeriod)) 0 4
    tl := 4 }, ?_, ?_, ?_, rfl, rfl⟩
  · simp only [Tx.settck, hm, packLE_unpackLE, hcall, BitVec.ofNat_toNat, BitVec.setWidth_eq]
  · change B.Serves (Tx.port B s0 { t with calls := t.calls ++ [.setPeriodNs period] }) _
    rw [hport]
    simpa [Message.edges, Message.bits, edgesOf] using h
  · have hend := slice_memcpy_end t.txb 0 (unpackLE 4 newPeriod)
    rw [unpackLE_length] at hend
    exact hend

theorem Plain.message_serves (h : B.Serves (t.port B s0) hist)
    (hsup : sup = B.supVecLen cfg.maxVecLen) (hchunk : min cfg.maxVecLen sup ≤ B.limit)
    {msg : Message} (hfits : msg.Fits cfg.maxVecLen) (rest : List Byte) :
    Goes (Plain.message cfg drv sup (t, msg.octets ++ rest))
      (fun x => x.2 = rest ∧ Answered B cfg s0 hist msg t x.1)
      (fun x => Broken B s0 hist msg.bits t x.1) := by
  cases msg with
  | getinfo =>
    rcases Tx.getinfo_serves cfg hdrv h with ⟨t', hreturn, hans⟩ | ⟨e, t', hthrew, hbroken⟩
    · obtain ⟨s, hmessage, hs⟩ := Plain.message_getinfo sup rest hreturn
      exact Or.inl ⟨(t', s), hmessage, hs rfl, hans⟩
    · obtain ⟨s, hmessage, -⟩ := Plain.message_getinfo sup rest hthrew
      exact Or.inr ⟨e, (t', s), hmessage, hbroken⟩
  | settck period =>
    have hlen : (Message.settck period).octets.length = 11 := by simp [Message.octets, ascii]
    have hm : slice (memOf ((Message.settck period).octets ++ rest)) 7 4 =
        unpackLE 4 period := by
      rw [slice_memOf_append _ (by omega)]
      simp [Message.octets, ascii, unpackLE]
    obtain ⟨t', hreturn, hans⟩ := Tx.settck_serves cfg hdrv h period hm
    obtain ⟨s, hmessage, hs⟩ := Plain.message_settck cfg sup hreturn
    exact Or.inl ⟨(t', s), hmessage, hs rfl, hans⟩
  | shift bits tms tdi =>
    obtain ⟨hbits, hmax⟩ := hfits
    have htms : ∀ i < bytesCeil bits, memOf (slice tms 0 (bytesCeil bits) ++
        slice tdi 0 (bytesCeil bits) ++ rest) i = tms i := by
      intro i hi
      rw [memOf, List.append_assoc, List.getD_append _ _ _ _ (by simpa using hi),
        getD_slice _ _ hi, Nat.zero_add]
    have htdi : ∀ i < bytesCeil bits, memOf (slice tms 0 (bytesCeil bits) ++
        slice tdi 0 (bytesCeil bits) ++ rest) (bytesCeil bits + i) = tdi i := by
      intro i hi
      rw [memOf, List.append_assoc, List.getD_append_right _ _ _ _ (by simp), slice_length,
        Nat.add_sub_cancel_left, List.getD_append _ _ _ _ (by simpa using hi),
        getD_slice _ _ hi, Nat.zero_add]
    rcases Tx.shift_serves hdrv h hsup hchunk hbits hmax htms htdi with
      ⟨t', hreturn, hserves, hreply, hsent, hserved⟩ | ⟨e, t', hthrew, hbroken⟩
    · obtain ⟨s, hmessage, hs⟩ := Plain.message_shift hbits hmax hreturn
      exact Or.inl ⟨(t', s), hmessage, hs rfl, hserves, hreply, hsent, hserved⟩
    · obtain ⟨s, hmessage, -⟩ := Plain.message_shift hbits hmax hthrew
      exact Or.inr ⟨e, (t', s), hmessage, hbroken⟩

/-- What the client has got when an exception has ended the connection: the messages up to some
point are served, and the TAP has seen their bits and some of the next message's. -/
structure CutShort (B : Backend tap σ) (cfg : Config) (s0 : σ) (hist : List Edge)
    (msgs done : List Message) (t t' : Tx) : Prop where
  done_prefix : done <+: msgs
  sent : t'.sent = t.sent ++ replies cfg.maxVecLen B.periodNs tap hist done
  served : t'.served = t.served + done.length
  stopped : ∃ part, part <+: ((msgs.drop done.length).take 1).flatMap Message.bits ∧
    B.Stopped (t'.port B s0) (hist ++ done.flatMap Message.edges ++ edgesOf part)

omit hdrv in
/-- One more message before the cut. -/
theorem CutShort.cons {msg : Message} {msgs done : List Message} {t1 t' : Tx}
    (hans : Answered B cfg s0 hist msg t t1)
    (h : CutShort B cfg s0 (hist ++ msg.edges) msgs done t1.flushed t') :
    CutShort B cfg s0 hist (msg :: msgs) (msg :: done) t t' := by
  refine ⟨?_, ?_, ?_, ?_⟩
  · rw [List.cons_prefix_cons]
    exact ⟨rfl, h.done_prefix⟩
  · rw [h.sent, replies, Tx.flushed, hans.reply, hans.sent, List.append_assoc]
  · have hone : t1.flushed.served = t.served + 1 := congrArg (· + 1) hans.served
    rw [h.served, hone, List.length_cons]
    omega
  · obtain ⟨part, hpart, hstopped⟩ := h.stopped
    refine ⟨part, hpart, ?_⟩
    rw [List.flatMap_cons, ← List.append_assoc]
    exact hstopped

theorem Plain.turns_serve (h : B.Serves (t.port B s0) hist)
    (hsup : sup = B.supVecLen cfg.maxVecLen) (hchunk : min cfg.maxVecLen sup ≤ B.limit)
    (msgs : List Message) (hfits : ∀ msg ∈ msgs, msg.Fits cfg.maxVecLen) (rest : List Byte)
    (k : ℕ) :
    (∃ t', Plain.turns cfg drv sup (msgs.length + k) (t, msgs.flatMap Message.octets ++ rest) =
        Plain.turns cfg drv sup k (t', rest) ∧
      B.Serves (t'.port B s0) (hist ++ msgs.flatMap Message.edges) ∧
      t'.sent = t.sent ++ replies cfg.maxVecLen B.periodNs tap hist msgs ∧
      t'.served = t.served + msgs.length) ∨
    ∃ e x done, Plain.turns cfg drv sup (msgs.length + k)
        (t, msgs.flatMap Message.octets ++ rest) = (.threw e, x) ∧
      CutShort B cfg s0 hist msgs done t x.1 := by
  induction msgs generalizing t hist with
  | nil =>
    refine Or.inl ⟨t, ?_, by simpa using h, by simp [replies], rfl⟩
    rw [List.length_nil, Nat.zero_add, List.flatMap_nil, List.nil_append]
  | cons msg msgs ih =>
    have hlen : ¬ (msg.octets ++ (msgs.flatMap Message.octets ++ rest)).length < 1 := by
      cases msg <;> simp [Message.octets, ascii]
    have hunfold : Plain.turns cfg drv sup ((msg :: msgs).length + k)
        (t, (msg :: msgs).flatMap Message.octets ++ rest) =
        andThen (andThen (Plain.message cfg drv sup
            (t, msg.octets ++ (msgs.flatMap Message.octets ++ rest)))
          fun x => (.returned, (x.1.flushed, x.2)))
            (Plain.turns cfg drv sup (msgs.length + k)) := by
      rw [List.flatMap_cons, List.append_assoc, List.length_cons, Nat.add_right_comm, Plain.turns,
        Plain.turn, Plain.need, if_neg hlen]
      rfl
    rw [hunfold]
    rcases Plain.message_serves hdrv h hsup hchunk (hfits msg (by simp))
        (msgs.flatMap Message.octets ++ rest) with
      ⟨⟨t1, s⟩, hmessage, hs, hans⟩ | ⟨e, x, hmessage, hbroken⟩
    · obtain rfl : s = _ := hs
      have hflushed : B.Serves (t1.flushed.port B s0) (hist ++ msg.edges) := hans.serves
      rw [hmessage]
      rcases ih hflushed fun m hm => hfits m (List.mem_cons_of_mem _ hm) with
        ⟨t', hturns, hserves, hsent, hserved⟩ | ⟨e, x, done, hturns, hcut⟩
      · refine Or.inl ⟨t', hturns, ?_, ?_, ?_⟩
        · rw [List.flatMap_cons, ← List.append_assoc]
          exact hserves
        · rw [hsent, replies, Tx.flushed, hans.reply, hans.sent, List.append_assoc]
        · have hone : t1.flushed.served = t.served + 1 := congrArg (· + 1) hans.served
          rw [hserved, hone, List.length_cons]
          omega
      · exact Or.inr ⟨e, x, msg :: done, hturns, hcut.cons hans⟩
    · refine Or.inr ⟨e, x, [], by rw [hmessage]; rfl, List.nil_prefix, ?_, hbroken.served, ?_⟩
      · rw [hbroken.sent, replies, List.append_nil]
      · obtain ⟨part, hpart, hstopped⟩ := hbroken.stopped
        refine ⟨part, ?_, ?_⟩
        · simpa using hpart
        · rw [List.flatMap_nil, List.append_nil]
          exact hstopped

variable (cfg) in
/-- The calls before the first message. -/
theorem Tx.allocBufs_serves (hfresh : B.Fresh s0 hist) :
    (∃ t', Tx.start.allocBufs cfg drv = (.ok (B.supVecLen cfg.maxVecLen), t') ∧
        B.Serves (t'.port B s0) hist ∧ t'.sent = [] ∧ t'.served = 0) ∨
      ∃ e t', Tx.start.allocBufs cfg drv = (.error e, t') ∧ B.Stopped (t'.port B s0) hist ∧
        t'.sent = [] ∧ t'.served = 0 := by
  rcases B.query hfresh with ⟨s1, hquery, hserves⟩ | ⟨e, s1, hquery, hstopped⟩
  · have hstart : B.step (Tx.start.port B s0) .query = _ := hquery
    obtain ⟨hcall, hport⟩ := Tx.call_backend hdrv hstart
    rw [← hport] at hserves
    obtain ⟨hcall', hport'⟩ := Tx.call_backend hdrv (B.getMaxVectorSize hserves)
    set t1 : Tx := { Tx.start with calls := Tx.start.calls ++ [.query] }
    refine Or.inl ⟨{ t1 with calls := t1.calls ++ [.getMaxVectorSize] }, ?_, ?_, rfl, rfl⟩
    · simp only [Tx.allocBufs, hcall, hcall', Backend.supVecLen]
    · rw [hport']
      exact hserves
  · have hstart : B.step (Tx.start.port B s0) .query = _ := hquery
    obtain ⟨hcall, hport⟩ := Tx.call_backend hdrv hstart
    rw [← hport] at hstopped
    refine Or.inr ⟨e, { Tx.start with calls := Tx.start.calls ++ [.query] }, ?_, hstopped, rfl,
      rfl⟩
    simp only [Tx.allocBufs, hcall]

/-- A connection up to the last message or to an exception, with a client that reads its replies.
What the client has got by then are the replies to the first messages, and the TAP has seen their
bits and at most a beginning of the bits of the message after them. -/
theorem run_upto (hfresh : B.Fresh s0 hist)
    (hchunk : min cfg.maxVecLen (B.supVecLen cfg.maxVecLen) ≤ B.limit) {io : Io}
    (hio : io.Sends) (msgs : List Message) (hfits : ∀ msg ∈ msgs, msg.Fits cfg.maxVecLen)
    (rest : List Byte) (k : ℕ) :
    let r := run cfg drv io (msgs.flatMap Message.octets ++ rest) (msgs.length + k)
    (∃ t, (r.1 = (Plain.turns cfg drv (B.supVecLen cfg.maxVecLen) k (t, rest)).1 ∧
        r.2.toTx = (Plain.turns cfg drv (B.supVecLen cfg.maxVecLen) k (t, rest)).2.1) ∧
      t.served = msgs.length ∧ t.sent = replies cfg.maxVecLen B.periodNs tap hist msgs ∧
      B.Serves (t.port B s0) (hist ++ msgs.flatMap Message.edges)) ∨
    ∃ e done, r.1 = .threw e ∧ CutShort B cfg s0 hist msgs done Tx.start r.2.toTx := by
  intro r
  have hsim := run_sim cfg drv hio (msgs.flatMap Message.octets ++ rest) (msgs.length + k)
  rcases Tx.allocBufs_serves cfg hdrv hfresh with
    ⟨t, halloc, hserves, hsent, hserved⟩ | ⟨e, t, halloc, hstopped, hsent, hserved⟩
  · have hplain : Plain.run cfg drv (msgs.flatMap Message.octets ++ rest) (msgs.length + k) =
        Plain.turns cfg drv (B.supVecLen cfg.maxVecLen) (msgs.length + k)
          (t, msgs.flatMap Message.octets ++ rest) := by
      rw [Plain.run, halloc]
    rw [hplain] at hsim
    rcases Plain.turns_serve hdrv hserves rfl hchunk msgs hfits rest k with
      ⟨t', hturns, hserves', hsent', hserved'⟩ | ⟨e, x, done, hturns, hcut⟩
    · rw [hturns] at hsim
      refine Or.inl ⟨t', ⟨hsim.progress, hsim.tx⟩, ?_, ?_, hserves'⟩
      · rw [hserved', hserved, Nat.zero_add]
      · rw [hsent', hsent, List.nil_append]
    · rw [hturns] at hsim
      have htx : r.2.toTx = x.1 := hsim.tx
      refine Or.inr ⟨e, done, hsim.progress, ?_⟩
      rw [htx]
      exact ⟨hcut.done_prefix, by rw [hcut.sent, hsent]; rfl, by rw [hcut.served, hserved]; rfl,
        hcut.stopped⟩
  · have hplain : Plain.run cfg drv (msgs.flatMap Message.octets ++ rest) (msgs.length + k) =
        (.threw e, (t, msgs.flatMap Message.octets ++ rest)) := by
      rw [Plain.run, halloc]
    rw [hplain] at hsim
    have htx : r.2.toTx = t := hsim.tx
    refine Or.inr ⟨e, [], hsim.progress, ?_⟩
    rw [htx]
    refine ⟨List.nil_prefix, hsent, hserved, [], List.nil_prefix, ?_⟩
    simpa [edgesOf] using hstopped

/-- What every driver that carries vectors, and has not stopped, makes of a connection: for every
sequence of messages, the client gets one reply after the other, where the reply to a shift are the
TDO bits of a TAP that has been clocked with the vectors of all shifts so far, bit by bit.  Neither
the segments of the stream nor the limits on the length of a vector show. -/
theorem run_serves (hfresh : B.Fresh s0 hist)
    (hchunk : min cfg.maxVecLen (B.supVecLen cfg.maxVecLen) ≤ B.limit) {io : Io}
    (hio : io.Sends) (msgs : List Message) (hfits : ∀ msg ∈ msgs, msg.Fits cfg.maxVecLen)
    (rest : List Byte) :
    let r := run cfg drv io (msgs.flatMap Message.octets ++ rest) msgs.length
    (∀ h, ¬ B.Stopped (r.2.toTx.port B s0) h) →
    r.1 = .running ∧ r.2.served = msgs.length ∧
      r.2.sent = replies cfg.maxVecLen B.periodNs tap hist msgs ∧
      B.Serves (r.2.toTx.port B s0) (hist ++ msgs.flatMap Message.edges) := by
  intro r hgoes
  obtain hend | ⟨e, done, -, hcut⟩ := run_upto hdrv hfresh hchunk hio msgs hfits rest 0
  · obtain ⟨t, ⟨hrunning, htx⟩, hserved, hsent, hserves⟩ := hend
    have hr : r.2.toTx = t := htx
    refine ⟨hrunning, ?_, ?_, ?_⟩
    · rw [hr, hserved]
    · rw [hr, hsent]
    · rwa [hr]
  · obtain ⟨part, -, hstopped⟩ := hcut.stopped
    exact absurd hstopped (hgoes _)

omit hdrv

theorem rises_edges (msgs : List Message) :
    rises (msgs.flatMap Message.edges) = msgs.flatMap Message.bits := by
  induction msgs with
  | nil => rfl
  | cons msg msgs ih =>
    rw [List.flatMap_cons, List.flatMap_cons, rises_append, ih, Message.edges, rises_edgesOf]

theorem replies_snoc (maxVecLen : ℕ) (periodNs : BitVec 32) (msgs : List Message) (msg : Message) :
    replies maxVecLen periodNs tap hist (msgs ++ [msg]) =
      replies maxVecLen periodNs tap hist msgs ++
        msg.reply maxVecLen periodNs tap (hist ++ msgs.flatMap Message.edges) := by
  induction msgs generalizing hist with
  | nil => simp [replies]
  | cons m msgs ih =>
    rw [List.cons_append, replies, ih, replies, List.flatMap_cons, List.append_assoc,
      List.append_assoc]

end Serve

end XvcSupport.XvcConn
