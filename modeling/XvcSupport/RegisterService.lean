import XvcSupport.Stack
import XvcSupport.RegisterBlocks

namespace XvcSupport

open AxisToJtag (Tap Edge edgesOf tdoAt response)
open JtagDriver RegisterDriver

def tapTarget (tap : Tap) : Target (List Edge) := fun hist tms tdi =>
  (tap hist tms tdi, hist ++ edgesOf [(tms, tdi)])

theorem shift_tapTarget (tap : Tap) (bits : List (Bool × Bool)) (hist : List Edge) :
    (tapTarget tap).shift bits hist = (response tap hist bits, hist ++ edgesOf bits) := by
  induction bits generalizing hist with
  | nil => exact Prod.ext rfl (List.append_nil hist).symm
  | cons b bits ih =>
    have hfirst : response tap hist [b] = [tap hist b.1 b.2] := by
      simp [response, tdoAt, edgesOf]
    have hsplit := AxisToJtag.response_append tap hist [b] bits
    have hedges := AxisToJtag.edgesOf_append [b] bits
    rw [List.singleton_append] at hsplit hedges
    rw [hsplit, hedges, hfirst, ← List.append_assoc]
    simp only [Target.shift, tapTarget, ih, List.singleton_append]

namespace JtagDriver

section Attempt

variable {σ : Type*} {xfer : XferMethod σ} {l : Link σ} {bits : ℕ} {tms tdi tdo : Mem} {net : σ}
  {p : ℕ}

theorem sendVectorsVia_ok (h4 : 4 ≤ l.drv.wordSize) (h16 : l.drv.wordSize ≤ 16) (h1 : 1 ≤ bits)
    (h20 : bits ≤ 2 ^ 20)
    (hxfer : xfer (l.drv.shiftMsg bits tms tdi) l.drv.wordSize (bytesCeil bits) p (l.tdo, l.net) =
      (.ok (mkShift (newXid l.drv.xid) bits), tdo, net)) :
    sendVectorsVia xfer bits tms tdi p l =
      (none, { drv := l.drv.afterShift bits tms tdi, tdo := tdo, net := net }) := by
  have hu : u32 (bytesCeil bits) = bytesCeil bits := by
    apply u32_of_lt
    unfold bytesCeil
    omega
  have hmsg : getHdr (l.drv.shiftMsg bits tms tdi) = mkShift (newXid l.drv.xid) bits :=
    getHdr_shiftMsg l.drv tms tdi h4 h16 (by omega)
  have hjudge : judge (getXid (getHdr (l.drv.shiftMsg bits tms tdi)))
      (mkShift (newXid l.drv.xid) bits) = .accept := by
    rw [hmsg, judge, getErr_mkShift _ h1 h20]
    simp
  simp only [sendVectorsVia, xferRel, hu, hxfer, hjudge]

theorem queryVia_ok {hdr : Header} {d : Drv} (h4 : 4 ≤ l.drv.wordSize)
    (hxfer : xfer l.drv.queryMsg l.drv.wordSize 0 0 (l.tdo, l.net) = (.ok hdr, tdo, net))
    (herr : getErr hdr = 0) (hadopt : l.drv.afterQueryMsg.adopt hdr = (none, d)) :
    queryVia xfer l = (.ok hdr, { drv := d, tdo := tdo, net := net }) := by
  have hjudge : judge (getXid (getHdr l.drv.queryMsg)) hdr = .accept := by
    rw [getHdr_queryMsg _ h4, judge, herr]
    simp [show getXid mkQuery = xidAny from by decide]
  simp only [queryVia, xferRel, hxfer, hjudge, hadopt]

end Attempt

end JtagDriver

namespace RegisterDriver

/-- A block of registers in front of the TAP: what the driver writes before the words, how it
shifts one of them, and which edges the TAP has seen when it can do so. -/
structure Block (tap : Tap) (σ : Type) where
  start : Transfer σ → Transfer σ
  shift : Shift σ
  view : σ → List Edge
  ready : σ → Prop
  shifts : Shifts (tapTarget tap) view (fun _ => ready) True shift
  start_buffers : ∀ t, (start t).hdbuf = t.hdbuf ∧ (start t).rxb = t.rxb
  start_ready : ∀ t, ready t.dev → ready (start t).dev
  start_view : ∀ t, view (start t).dev = view t.dev

variable {tap : Tap} {σ : Type}

/-- `xfer` as `xferRel` calls it, with the header read from `hdbuf`.  The buffer for TDO is the
caller's.  A run that does not return shows as an error, in the state before it. -/
def overRegisters (start : Transfer σ → Transfer σ) (shift : Shift σ) (code : ℕ → Header)
    (fuel : ℕ) : XferMethod (Transfer σ) := fun msg hsize size p (tdo, t) =>
  match xfer start shift hsize code msg msg.length hsize size fuel
      { t with rxb := fun i => tdo (p + i) } with
  | some (.ok (_, t')) =>
    (.ok (getHdr (slice t'.hdbuf 0 hsize)), fun i => if i < p then tdo i else t'.rxb (i - p), t')
  | some (.error (.thrown e)) => (.error e, tdo, t)
  | some (.error .overrun) => (.error (.runtimeErr "xfer() reads behind the message"), tdo, t)
  | none => (.error (.runtimeErr "xfer() does not return"), tdo, t)

/-- The header that these drivers answer a query with: words of four octets, no memory, and a
period that is not known. -/
def blockReply : Header := pvers ||| cmdQ ||| 3

theorem mkQueryReply_block (code : ℕ → Header) :
    mkQueryReply code pvers 4 0 unknownPeriod = .ok blockReply := by
  simp [mkQueryReply, encPerNs, unknownPeriod, blockReply]

variable (B : Block tap σ) {code : ℕ → Header} {fuel : ℕ}

variable (code) in
theorem overRegisters_shift (hfuel : 2 ^ 20 < fuel) {d : Drv} (hws : d.wordSize = 4) {bits : ℕ}
    (h1 : 1 ≤ bits) (h20 : bits ≤ 2 ^ 20) (tms tdi tdo : Mem) (p : ℕ) {t : Transfer σ}
    (hready : B.ready t.dev) :
    let vec := vectorBits tms tdi bits
    ∃ t', overRegisters B.start B.shift code fuel (d.shiftMsg bits tms tdi) d.wordSize
        (bytesCeil bits) p (tdo, t) =
        (.ok (mkShift (newXid d.xid) bits),
          memcpy tdo p (memOf (octetsOfBits (response tap (B.view t.dev) vec))) 0 (bytesCeil bits),
          t') ∧
      B.ready t'.dev ∧ B.view t'.dev = B.view t.dev ++ edgesOf vec := by
  intro vec
  set t₀ : Transfer σ := { t with rxb := fun i => tdo (p + i) } with ht₀
  obtain ⟨t', hrun, hdone, hready'⟩ := xfer_shiftMsg_ready tms tdi t₀ (v := B.view t.dev)
    hws h1 h20 B.shifts B.start_buffers code (by omega : bits < fuel)
    (fun _ => B.start_ready _ hready) (fun _ => B.start_view _)
  have hshift := shift_tapTarget tap vec (B.view t.dev)
  refine ⟨t', ?_, hready', hdone.target.trans (congrArg Prod.snd hshift)⟩
  have hhdr : getHdr (slice t'.hdbuf 0 4) = mkShift (newXid d.xid) bits := by
    rw [hdone.hdbuf]
    exact getHdr_slice le_rfl fun i hi => setHdr_low _ _ _ hi
  have hlen : (octetsOfBits (response tap (B.view t.dev) vec)).length = bytesCeil bits := by
    simp [vec]
  -- the octets stored are those of the TDO bits, filled up with zeros
  have hoctet : ∀ j < bytesCeil bits,
      t'.rxb j = memOf (octetsOfBits (response tap (B.view t.dev) vec)) j := by
    intro j hj
    apply octet_eq
    intro i hle hlt
    rw [memBit_octetsOfBits]
    by_cases hi : i < bits
    · rw [hdone.tdo i hi]
      exact congrArg (fun x => x.1.getD i false) hshift
    · rw [hdone.pad trivial i (by omega) (by omega),
        List.getD_eq_default _ _ (by simp [vec]; omega)]
  have hbuf : (fun i => if i < p then tdo i else t'.rxb (i - p)) =
      memcpy tdo p (memOf (octetsOfBits (response tap (B.view t.dev) vec))) 0
        (bytesCeil bits) := by
    funext i
    unfold memcpy
    by_cases hlow : i < p
    · rw [if_pos hlow, if_neg (by omega)]
    · rw [if_neg hlow]
      by_cases hin : i < p + bytesCeil bits
      · rw [if_pos ⟨by omega, hin⟩, Nat.add_zero, hoctet _ (by omega)]
      · rw [if_neg (by omega), hdone.outside _ (by omega)]
        simp only [ht₀]
        congr 1
        omega
  rw [overRegisters, hws, hrun]
  simp only [Run.returned, hhdr, hbuf]

variable (code fuel) in
theorem overRegisters_query {d : Drv} (hws : d.wordSize = 4) (tdo : Mem) (t : Transfer σ) :
    ∃ t', overRegisters B.start B.shift code fuel d.queryMsg d.wordSize 0 0 (tdo, t) =
        (.ok blockReply, tdo, t') ∧ t'.dev = t.dev := by
  have hlen : d.queryMsg.length = 4 := by rw [Drv.queryMsg, slice_length, hws]
  have hget : getw32 d.queryMsg 0 = Run.returned mkQuery := by
    rw [getw32, if_pos (by omega), List.drop_zero]
    exact congrArg Run.returned (getHdr_queryMsg d (by omega))
  have hvrs : getVrs mkQuery = pvers := by decide
  have hcmd : getCmd mkQuery = cmdQ := by decide
  refine ⟨{ t with hdbuf := setHdr t.hdbuf 4 blockReply, rxb := fun i => tdo (0 + i) }, ?_, rfl⟩
  have hhdr : getHdr (slice (setHdr t.hdbuf 4 blockReply) 0 4) = blockReply :=
    getHdr_slice le_rfl fun i hi => setHdr_low _ _ _ hi
  have hrun : xfer B.start B.shift 4 code d.queryMsg d.queryMsg.length 4 0 fuel
      { t with rxb := fun i => tdo (0 + i) } = Run.returned (4,
        { t with hdbuf := setHdr t.hdbuf 4 blockReply, rxb := fun i => tdo (0 + i) }) := by
    rw [xfer, hget]
    simp only [returned_bind, hvrs, hcmd, ne_eq, not_true_eq_false, if_false, if_true,
      mkQueryReply_block, lift, pure_eq_returned]
  rw [overRegisters, hws, hrun]
  simp only [Run.returned, hhdr, Nat.not_lt_zero, if_false, Nat.sub_zero, Nat.zero_add]

end RegisterDriver

namespace XvcConn

open RegisterDriver

section

variable {tap : Tap} {σ : Type}

/-- The driver knows the size of its words and has room for the messages of `limit` octets, and the
block is ready. -/
structure Shows (B : Block tap σ) (limit : ℕ) (s : Port (Transfer σ)) (hist : List Edge) :
    Prop where
  wordSize : s.link.drv.wordSize = 4
  buffer : msgOctets 4 (8 * limit) ≤ s.link.drv.bufSz
  ready : B.ready s.link.net.dev
  hist : B.view s.link.net.dev = hist

variable {B : Block tap σ} {limit : ℕ} {code : ℕ → Header} {fuel : ℕ} {s : Port (Transfer σ)}
  {hist : List Edge}

variable (code fuel) in
theorem Shows.query (h : Shows B limit s hist) :
    ∃ l, queryVia (overRegisters B.start B.shift code fuel) s.link = (.ok blockReply, l) ∧
      l.drv.tgtVecLen = 0 ∧ ∀ periodNs, Shows B limit ⟨l, periodNs⟩ hist := by
  obtain ⟨t', hquery, hdev⟩ :=
    overRegisters_query B code fuel h.wordSize s.link.tdo s.link.net
  have hsize : JtagDriver.wordSize blockReply = 4 := by decide
  have hdepth : JtagDriver.memDepth blockReply = 0 := by decide
  obtain ⟨hnone, hadopt, hadopt', hbuf⟩ := adopt_valid s.link.drv.afterQueryMsg
    ⟨blockReply, hsize.ge⟩
  rcases hd : s.link.drv.afterQueryMsg.adopt blockReply with ⟨e, d⟩
  dsimp only at hnone hadopt hadopt' hbuf
  rw [hd] at hnone hadopt hadopt' hbuf
  obtain rfl : e = none := hnone
  have hws : d.wordSize = 4 := hadopt.trans hsize
  have hlen : d.tgtVecLen = 0 := by
    have hzero : d.memDepth = 0 := hadopt'.trans hdepth
    rw [Drv.tgtVecLen, hzero, Nat.zero_mul]
    rfl
  refine ⟨{ drv := d, tdo := s.link.tdo, net := t' }, ?_, hlen, fun _ =>
    ⟨hws, (h.buffer.trans (le_max_left _ _)).trans hbuf.ge, ?_, ?_⟩⟩
  · exact queryVia_ok h.wordSize.ge hquery (by decide) hd
  · exact hdev ▸ h.ready
  · exact hdev ▸ h.hist

variable (code) in
theorem Shows.sendVectors (hfuel : 2 ^ 20 < fuel) (h : Shows B limit s hist) {bits : ℕ}
    (h1 : 1 ≤ bits) (h20 : bits ≤ 2 ^ 20) (tms tdi : Mem) :
    let vec := vectorBits tms tdi bits
    ∃ l, sendVectorsVia (overRegisters B.start B.shift code fuel) bits tms tdi 0 s.link =
        (none, l) ∧
      slice l.tdo 0 (bytesCeil bits) = octetsOfBits (response tap hist vec) ∧
      ∀ periodNs, Shows B limit ⟨l, periodNs⟩ (hist ++ edgesOf vec) := by
  intro vec
  obtain ⟨t', hxfer, hready, hview⟩ := overRegisters_shift B code hfuel h.wordSize h1 h20
    tms tdi s.link.tdo 0 h.ready
  rw [h.hist] at hxfer hview
  have hlen : (octetsOfBits (response tap hist vec)).length = bytesCeil bits := by simp [vec]
  have hend := slice_memcpy_end s.link.tdo 0 (octetsOfBits (response tap hist vec))
  rw [hlen, Nat.zero_add] at hend
  exact ⟨_, sendVectorsVia_ok h.wordSize.ge (h.wordSize.trans_le (by decide)) h1 h20 hxfer, hend,
    fun _ => ⟨h.wordSize, h.buffer, hready, hview⟩⟩

/-- The longest vector that the server hands to such a driver, in octets. -/
def blockLongest (kind : DrvKind) (cfg : Config) : ℕ :=
  min cfg.maxVecLen (supVecLen cfg.maxVecLen 0 (kind.getMaxVectorSize 4))

def blockBackend (B : Block tap σ) (kind : DrvKind) (cvtPerNs : Header → BitVec 32)
    (code : ℕ → Header) (hfuel : 2 ^ 20 < fuel) {limit : ℕ} (hlimit : limit ≤ 2 ^ 17) :
    Backend tap (Port (Transfer σ)) where
  step := Port.step (overRegisters B.start B.shift code fuel) kind cvtPerNs
  Fresh := Shows B limit
  Serves s hist := Shows B limit s hist ∧ s.periodNs = cvtPerNs blockReply
  Stopped _ _ := False
  tgtVecLen := 0
  maxVectorSize := kind.getMaxVectorSize 4
  periodNs := cvtPerNs blockReply
  limit := limit
  limit_le := hlimit
  again := fun h => h.1
  query := by
    intro s hist h
    obtain ⟨l, hquery, hlen, hshows⟩ := h.query code fuel
    exact Or.inl
      ⟨⟨l, cvtPerNs blockReply⟩, by simp only [Port.step, hquery, hlen], hshows _, rfl⟩
  getMaxVectorSize := by
    rintro s hist ⟨h, -⟩
    rw [← h.wordSize]
    rfl
  setPeriodNs := by
    rintro s hist ⟨-, hperiod⟩ p
    rw [← hperiod]
    rfl
  sendVectors := by
    rintro s hist ⟨h, hperiod⟩ bits h1 hle - tms tdi vec
    have htot : ¬ s.link.drv.bufSz < bytesTot s.link.drv.wordSize bits := by
      rw [not_lt, h.wordSize, bytesTot_eq_msgOctets (by decide) (by decide) (by omega)]
      have hmono := msgOctets_mono 4
        (show bytesCeil bits ≤ bytesCeil (8 * limit) by unfold bytesCeil; omega)
      exact hmono.trans h.buffer
    obtain ⟨l, hcall, hout, hshows⟩ := h.sendVectors code hfuel h1 (by omega) (memOf tms)
      (memOf tdi)
    exact Or.inl ⟨⟨l, s.periodNs⟩, by simp only [Port.step, if_neg htot, hcall, hout, vec],
      hshows _, hperiod⟩

theorem blockBackend_reliable (B : Block tap σ) (kind : DrvKind) (cvtPerNs : Header → BitVec 32)
    (code : ℕ → Header) (hfuel : 2 ^ 20 < fuel) {limit : ℕ} (hlimit : limit ≤ 2 ^ 17) :
    (blockBackend B kind cvtPerNs code hfuel hlimit).Reliable := fun _ _ h => h

end

end XvcConn

end XvcSupport
