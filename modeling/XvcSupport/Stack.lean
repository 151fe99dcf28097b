import XvcSupport.Requests
import XvcSupport.Service

namespace XvcSupport.JtagDriver

variable {σ : Type*}

/-- The virtual method `xfer` of a driver: a message, the sizes of the header and of the buffer for
TDO, and the offset of that buffer. -/
abbrev XferMethod (σ : Type*) :=
  List Byte → (hsize size p : ℕ) → Mem × σ → Except Err Header × Mem × σ

/-- `sendVectors`, for any `xfer`. -/
def sendVectorsVia (xfer : XferMethod σ) (bits : ℕ) (tms tdi : Mem) (p : ℕ) (l : Link σ) :
    Option Err × Link σ :=
  let msg := l.drv.shiftMsg bits tms tdi
  let (r, tdo, net) := xferRel (xfer msg l.drv.wordSize (u32 (bytesCeil bits)) p)
    (getXid (getHdr msg)) (l.drv.retry + 1) (l.tdo, l.net)
  let l := { drv := l.drv.afterShift bits tms tdi, tdo := tdo, net := net }
  match r with
  | .error e => (some e, l)
  | .ok _ => (none, l)

/-- `query`, for any `xfer`, with the header that it has adopted. -/
def queryVia (xfer : XferMethod σ) (l : Link σ) : Except Err Header × Link σ :=
  let msg := l.drv.queryMsg
  let (r, tdo, net) := xferRel (xfer msg l.drv.wordSize 0 0) (getXid (getHdr msg))
    (l.drv.retry + 1) (l.tdo, l.net)
  match r with
  | .error e => (.error e, { drv := l.drv.afterQueryMsg, tdo := tdo, net := net })
  | .ok hdr =>
    match l.drv.afterQueryMsg.adopt hdr with
    | (some e, d) => (.error e, { drv := d, tdo := tdo, net := net })
    | (none, d) => (.ok hdr, { drv := d, tdo := tdo, net := net })

/-- `xfer` over a transport. -/
def overExchange (exchange : Exchange σ) : XferMethod σ := xfer exchange

theorem sendVectorsVia_exchange (exchange : Exchange σ) :
    sendVectorsVia (overExchange exchange) = sendVectors exchange := rfl

/-- A query over a transport returns if it does so by the other account, with the header that
`xferRel` has accepted. -/
theorem queryVia_exchange {exchange : Exchange σ} {l l' : Link σ} {hdr : Header}
    (h : query exchange l = (none, l'))
    (hhdr : (xferRel (xfer exchange l.drv.queryMsg l.drv.wordSize 0 0)
      (getXid (getHdr l.drv.queryMsg)) (l.drv.retry + 1) (l.tdo, l.net)).1 = .ok hdr) :
    queryVia (overExchange exchange) l = (.ok hdr, l') := by
  simp only [query, hhdr] at h
  simp only [queryVia, overExchange, hhdr]
  rcases hadopt : l.drv.afterQueryMsg.adopt hdr with ⟨e, d⟩
  rw [hadopt] at h
  obtain ⟨rfl, rfl⟩ := Prod.mk.inj h
  rfl

end XvcSupport.JtagDriver

namespace XvcSupport.XvcConn

open JtagDriver AxisToJtag

/-- A driver with its network and with `periodNs_`. -/
structure Port (σ : Type*) where
  link : Link σ
  periodNs : BitVec 32

def overrun : Err := .runtimeErr "sendVectors() writes behind txBuf_"

/-- The methods that a connection calls.  The TDO octets are handed back from a buffer of the
driver's own.  What the source does with a message that is too long for `txBuf_` is undefined; it
shows as an error. -/
def Port.step {σ : Type*} (xfer : XferMethod σ) (kind : DrvKind) (cvtPerNs : Header → BitVec 32)
    (s : Port σ) : DrvCall → Except Err (ℕ × List Byte) × Port σ
  | .query =>
    match queryVia xfer s.link with
    | (.error e, l) => (.error e, { s with link := l })
    | (.ok hdr, l) => (.ok (l.drv.tgtVecLen, []), { link := l, periodNs := cvtPerNs hdr })
  | .getMaxVectorSize => (.ok (kind.getMaxVectorSize s.link.drv.wordSize, []), s)
  | .setPeriodNs requestedPeriod =>
    (.ok ((setPeriodNs s.periodNs requestedPeriod).toNat, []), s)
  | .sendVectors bits tms tdi =>
    if s.link.drv.bufSz < bytesTot s.link.drv.wordSize bits then (.error overrun, s)
    else match sendVectorsVia xfer bits (memOf tms) (memOf tdi) 0 s.link with
    | (some e, l) => (.error e, { s with link := l })
    | (none, l) => (.ok (0, slice l.tdo 0 (bytesCeil bits)), { s with link := l })

section Firmware

variable {g : Generics} {a : ℕ} {tap : Tap} (kind : DrvKind) (cvtPerNs : Header → BitVec 32)

/-- A transport that takes no longer messages than the driver's.  `write()` of a datagram fails;
a FIFO without room loses words, which shows as the same error. -/
def DrvKind.over {σ : Type*} (kind : DrvKind) (exchange : Exchange σ) : Exchange σ := fun net msg =>
  if kind.takes msg.length then exchange net msg
  else (.error (.sysErr "JtagDriverUdp: unable to send"), net)

/-- The driver's methods over the firmware. -/
abbrev stackStep (g : Generics) (tap : Tap) (kind : DrvKind) (cvtPerNs : Header → BitVec 32) :
    Port (List (List (BitVec g.W))) → DrvCall →
      Except Err (ℕ × List Byte) × Port (List (List (BitVec g.W))) :=
  Port.step (overExchange (kind.over (firmware g tap))) kind cvtPerNs

/-- The longest vector that the server hands to the driver, in octets. -/
def longest (g : Generics) (kind : DrvKind) (cfg : Config) : ℕ :=
  min cfg.maxVecLen
    (supVecLen cfg.maxVecLen (g.memDepth * g.axisWidth) (kind.getMaxVectorSize g.axisWidth))

/-- A shift of `limit` octets is one for the protocol, and its message fits the driver's buffer and
the transport.  A target with memory makes the driver reserve enough. -/
structure Fitting (g : Generics) (kind : DrvKind) (bufSz limit : ℕ) : Prop where
  limit_le : limit ≤ 2 ^ 17
  buffer : g.memDepth = 0 → msgOctets g.axisWidth (8 * limit) ≤ bufSz
  transport : kind.takes (msgOctets g.axisWidth (8 * limit))

/-- The driver may be asked for the firmware's parameters. -/
structure Askable (tap : Tap) (s : Port (List (List (BitVec g.W)))) : Prop where
  four_le : 4 ≤ s.link.drv.wordSize
  wordSize_le : s.link.drv.wordSize ≤ g.axisWidth
  tidy : AllTidy tap (Fw.init g.W) s.link.net

/-- The driver has the firmware's parameters, and the TAP has seen the edges `hist`. -/
structure Serves (tap : Tap) (cvtPerNs : Header → BitVec 32)
    (s : Port (List (List (BitVec g.W)))) (hist : List Edge) : Prop where
  tied : Tied tap s.link
  period : s.periodNs = cvtPerNs (queryReply g)
  hist : (afterAll tap (Fw.init g.W) s.link.net).hist = hist

variable {s : Port (List (List (BitVec g.W)))} {hist : List Edge}

theorem step_query (h : Askable tap s) (htakes : kind.takes g.axisWidth) :
    ∃ s', stackStep g tap kind cvtPerNs s .query = (.ok (g.memDepth * g.axisWidth, []), s') ∧
      Serves tap cvtPerNs s' (afterAll tap (Fw.init g.W) s.link.net).hist ∧
      s.link.drv.bufSz ≤ s'.link.drv.bufSz ∧
      s'.link.net = s.link.net ++ [Protocol.frame g s.link.drv.queryMsg] := by
  have hlen : s.link.drv.queryMsg.length = s.link.drv.wordSize := slice_length _ _ _
  have hover : kind.over (firmware g tap) s.link.net s.link.drv.queryMsg =
      firmware g tap s.link.net s.link.drv.queryMsg :=
    if_pos (DrvKind.takes_mono (hlen.trans_le h.wordSize_le) htakes)
  obtain ⟨l', hquery, htied, hdepth, hbuf, hnet, hhist, hhdr⟩ :=
    query_firmware h.four_le h.wordSize_le h.tidy hover
  have hvec : l'.drv.tgtVecLen = g.memDepth * g.axisWidth := by
    have hm : g.memDepth * g.axisWidth ≤ 2 ^ 16 * 16 :=
      Nat.mul_le_mul g.memDepth_lt.le g.le_sixteen
    rw [Drv.tgtVecLen, hdepth, htied.wordSize]
    exact u32_of_lt (by omega)
  refine ⟨⟨l', cvtPerNs (queryReply g)⟩, ?_, ⟨htied, rfl, hhist⟩, hbuf, hnet⟩
  simp only [stackStep, Port.step, queryVia_exchange hquery hhdr, hvec]

theorem Serves.askable (h : Serves tap cvtPerNs s hist) : Askable tap s :=
  ⟨g.four_le.trans h.tied.wordSize.ge, h.tied.wordSize.le, h.tied.tidy⟩

/-- A message of the firmware's driver fits `txBuf_`: by the limit for a target without memory, and
by what a query has made it reserve for one with memory. -/
theorem bytesTot_le {limit room : ℕ} {l : Link (List (List (BitVec g.W)))} (htied : Tied tap l)
    (hbuf : g.memDepth = 0 → msgOctets g.axisWidth (8 * limit) ≤ room) (hroom : room ≤ l.drv.bufSz)
    {bits : ℕ} (hlt : bits < 2 ^ 32) (hlimit : bits ≤ 8 * limit)
    (hmem : g.memDepth = 0 ∨ bits ≤ g.W * g.memDepth) :
    bytesTot l.drv.wordSize bits ≤ l.drv.bufSz := by
  have h4 := g.four_le
  rw [htied.wordSize, bytesTot_eq_msgOctets (by omega) g.le_sixteen hlt]
  by_cases hd : g.memDepth = 0
  · have hmono := msgOctets_mono g.axisWidth
      (show bytesCeil bits ≤ bytesCeil (8 * limit) by unfold bytesCeil; omega)
    exact hmono.trans ((hbuf hd).trans hroom)
  · have hW := g.W_mul g.memDepth
    have hle : bytesCeil bits ≤ g.memDepth * g.axisWidth := by
      unfold bytesCeil
      omega
    exact (msgOctets_le_reserved (by omega) hle).trans htied.reserved

theorem le_memory {bits : ℕ}
    (h : g.memDepth * g.axisWidth = 0 ∨ bits ≤ 8 * (g.memDepth * g.axisWidth)) :
    g.memDepth = 0 ∨ bits ≤ g.W * g.memDepth := by
  have hpos := g.four_le
  rw [g.W_mul]
  exact h.imp_left fun hzero => (Nat.mul_eq_zero.mp hzero).resolve_right (by omega)

theorem step_sendVectors (ha : g.W = 2 ^ a) (h : Serves tap cvtPerNs s hist) {limit room : ℕ}
    (hfit : Fitting g kind room limit) (hroom : room ≤ s.link.drv.bufSz) {bits : ℕ}
    (h1 : 1 ≤ bits) (hlimit : bits ≤ 8 * limit) (hmem : g.memDepth = 0 ∨ bits ≤ g.W * g.memDepth)
    (tms tdi : List Byte) :
    let vec := vectorBits (memOf tms) (memOf tdi) bits
    ∃ s', stackStep g tap kind cvtPerNs s (.sendVectors bits tms tdi) =
        (.ok (0, octetsOfBits (response tap hist vec)), s') ∧
      Serves tap cvtPerNs s' (hist ++ edgesOf vec) ∧ room ≤ s'.link.drv.bufSz ∧
      s'.link.net =
        s.link.net ++ [Protocol.frame g (s.link.drv.shiftMsg bits (memOf tms) (memOf tdi))] := by
  intro vec
  have h4 := g.four_le
  have h17 := hfit.limit_le
  have htot := bytesTot_le h.tied hfit.buffer hroom (by omega) hlimit hmem
  have hlen : (s.link.drv.shiftMsg bits (memOf tms) (memOf tdi)).length =
      msgOctets g.axisWidth bits := by
    rw [Drv.shiftMsg, slice_length, h.tied.wordSize,
      bytesTot_eq_msgOctets (by omega) g.le_sixteen (by omega)]
  have htakes : kind.takes (s.link.drv.shiftMsg bits (memOf tms) (memOf tdi)).length := by
    apply DrvKind.takes_mono _ hfit.transport
    rw [hlen]
    apply msgOctets_mono
    unfold bytesCeil
    omega
  have hover : kind.over (firmware g tap) s.link.net
      (s.link.drv.shiftMsg bits (memOf tms) (memOf tdi)) =
        firmware g tap s.link.net (s.link.drv.shiftMsg bits (memOf tms) (memOf tdi)) :=
    if_pos htakes
  obtain ⟨l', hcall, htied, hbuf, hnet, htdo, hhist⟩ := h.tied.sendVectors ha h1 (by omega) hmem
    (memOf tms) (memOf tdi) 0 hover
  rw [h.hist] at htdo hhist
  have hlen : (octetsOfBits (response tap hist vec)).length = bytesCeil bits := by
    simp [vec]
  have hout : slice l'.tdo 0 (bytesCeil bits) = octetsOfBits (response tap hist vec) := by
    have hend := slice_memcpy_end s.link.tdo 0 (octetsOfBits (response tap hist vec))
    rw [hlen, Nat.zero_add] at hend
    rw [htdo, hend]
    rfl
  refine ⟨⟨l', s.periodNs⟩, ?_, ⟨htied, h.period, hhist⟩, hroom.trans hbuf.ge, hnet⟩
  simp only [stackStep, Port.step, if_neg (not_lt.mpr htot), sendVectorsVia_exchange, hcall, hout]

/-- The driver over a lossless network, with the firmware behind it. -/
def firmwareBackend (ha : g.W = 2 ^ a) (tap : Tap) {room limit : ℕ}
    (hfit : Fitting g kind room limit) : Backend tap (Port (List (List (BitVec g.W)))) where
  step := stackStep g tap kind cvtPerNs
  Fresh s hist := Askable tap s ∧ room ≤ s.link.drv.bufSz ∧
    (afterAll tap (Fw.init g.W) s.link.net).hist = hist
  Serves s hist := Serves tap cvtPerNs s hist ∧ room ≤ s.link.drv.bufSz
  Stopped _ _ := False
  tgtVecLen := g.memDepth * g.axisWidth
  maxVectorSize := kind.getMaxVectorSize g.axisWidth
  periodNs := cvtPerNs (queryReply g)
  limit := limit
  limit_le := hfit.limit_le
  again := by
    rintro s hist ⟨h, hroom⟩
    exact ⟨h.askable cvtPerNs, hroom, h.hist⟩
  query := by
    rintro s hist ⟨hask, hroom, rfl⟩
    have htakes : kind.takes g.axisWidth :=
      DrvKind.takes_mono (Nat.le_add_right _ _) hfit.transport
    obtain ⟨s', hstep, hserves, hbuf, -⟩ := step_query kind cvtPerNs hask htakes
    exact Or.inl ⟨s', hstep, hserves, hroom.trans hbuf⟩
  getMaxVectorSize := by
    rintro s hist ⟨h, -⟩
    rw [← h.tied.wordSize]
    rfl
  setPeriodNs := by
    rintro s hist ⟨h, -⟩ p
    rw [← h.period]
    rfl
  sendVectors := by
    rintro s hist ⟨h, hroom⟩ bits h1 hlimit hmem tms tdi
    obtain ⟨s', hstep, hserves, hbuf, -⟩ :=
      step_sendVectors kind cvtPerNs ha h hfit hroom h1 hlimit (le_memory hmem) tms tdi
    exact Or.inl ⟨s', hstep, hserves, hbuf⟩

variable {kind cvtPerNs} {cfg : Config}

theorem firmwareBackend_reliable (ha : g.W = 2 ^ a) {room limit : ℕ}
    (hfit : Fitting g kind room limit) :
    (firmwareBackend kind cvtPerNs ha tap hfit).Reliable := fun _ _ h => h

/-- A driver just started, with a TAP that sends back the inverse of TDI. -/
def fresh : Port (List (List (BitVec fourOctets.W))) where
  link := { drv := Drv.new (fun _ => 0) 7, tdo := fun _ => 0, net := [] }
  periodNs := 0

theorem fresh_askable (tap : Tap) : Askable tap fresh := ⟨by decide, by decide, trivial⟩

theorem fresh_fitting :
    Fitting fourOctets (.udp 1450) fresh.link.drv.bufSz
      (longest fourOctets (.udp 1450) ⟨32768, by decide⟩) := ⟨by decide, by decide, by decide⟩

/-- One octet with every `read()`, three with every `write()`. -/
def octetwise : Io := ⟨fun _ => 0, fun _ => .takes 2⟩

theorem octetwise_sends : octetwise.Sends := fun _ => ⟨2, rfl⟩

theorem rises_mono {h h' : List Edge} (hle : h <+: h') : rises h <+: rises h' :=
  (hle.filter _).map _

/-- Fed with frames that do not break off, the clocked entity moves the pins as the firmware is to
do with whole frames, whatever the gaps and stalls. -/
theorem pins_show (ha : g.W = 2 ^ a) {frames : List (List (BitVec g.W))}
    (htidy : AllTidy tap (Fw.init g.W) frames) {clkDiv2 : ℕ} (hD : 0 < clkDiv2)
    (bufMem : ℕ → BitVec g.W) (memOut : BitVec g.W) (evs : ℕ → Bool × Bool) :
    let dev := Dev.run clkDiv2 tap frames bufMem memOut evs
    let bits := rises (afterAll tap (Fw.init g.W) frames).hist
    (∀ t, (dev t).out <+: answers tap (Fw.init g.W) frames ∧ rises (dev t).hist <+: bits) ∧
      (Fair evs → ∃ T, ∀ t ≥ T, (dev t).out = answers tap (Fw.init g.W) frames ∧
        rises (dev t).hist = bits) := by
  intro dev bits
  have hfit : ∀ f ∈ frames, AxisToJtag.Fits g f := fun f hf => fits_of_width ha (htidy.ne_nil hf)
  have hne : ∀ f ∈ frames, f ≠ [] := fun f hf => htidy.ne_nil hf
  have hgood : ∀ t, (dev t).Sound (evs t) ∧ (dev t).InRange (evs t) :=
    Dev.run_sound hD hfit htidy
  constructor
  · intro t
    obtain ⟨n, hat⟩ := DevAt.run hD hne (fun t => (hgood t).1) (fun t => (hgood t).2) t
    obtain ⟨hout, hhist⟩ := hat.beginning (hgood t).1
    exact ⟨hout, rises_mono hhist⟩
  · intro hfair
    obtain ⟨T, hT⟩ := Dev.run_ends hD hne (fun t => (hgood t).1) (fun t => (hgood t).2) hfair
    refine ⟨T, fun t ht => ?_⟩
    obtain ⟨-, hout, hhist⟩ := hT t ht
    exact ⟨hout, congrArg rises hhist⟩

end Firmware

end XvcSupport.XvcConn
