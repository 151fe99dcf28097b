import XvcSupport.Chunks

namespace XvcSupport.XvcConn

open JtagDriver

/-- The shipped drivers with what their `getMaxVectorSize()` depends on. -/
inductive DrvKind
  | loopback
  | axiDbgBridgeIP (maxBytes : ℕ)
  | udp (mtu : ℕ)
  | zynqAxis (sizVal : ℕ)
  | tmem (csrVal : ℕ)

def DrvKind.getMaxVectorSize (wordSize : ℕ) : DrvKind → ℕ
  | .loopback => 0
  | .axiDbgBridgeIP maxBytes => maxBytes
  | .udp mtu => udpMaxVec mtu wordSize
  | .zynqAxis sizVal => zynqMaxVec sizVal
  | .tmem csrVal => tmemMaxVec csrVal

/-- The transport takes a message of this many octets: a datagram up to the MTU, a message for
which the FIFO has room, and any message within the process. -/
def DrvKind.takes (octets : ℕ) : DrvKind → Bool
  | .loopback => true
  | .axiDbgBridgeIP _ => true
  | .udp mtu => decide (octets ≤ mtu)
  | .zynqAxis sizVal => decide (octets ≤ zynqMaxWords sizVal * zynqWrdSiz sizVal)
  | .tmem csrVal => decide (octets ≤ tmemMaxWords csrVal * tmemWrdSiz)

theorem DrvKind.takes_mono {kind : DrvKind} {n m : ℕ} (hle : n ≤ m) (h : kind.takes m) :
    kind.takes n := by
  cases kind with
  | loopback => rfl
  | axiDbgBridgeIP maxBytes => rfl
  | udp mtu => exact decide_eq_true (hle.trans (of_decide_eq_true h))
  | zynqAxis sizVal => exact decide_eq_true (hle.trans (of_decide_eq_true h))
  | tmem csrVal => exact decide_eq_true (hle.trans (of_decide_eq_true h))

/-- A query reply whose word size the driver accepts. -/
structure QueryReply where
  hdr : Header
  valid : 4 ≤ wordSize hdr

theorem wordSize_le (hdr : Header) : wordSize hdr ≤ 16 := by
  have h : (hdr &&& 0x0000000f).toNat ≤ 15 := by
    rw [BitVec.toNat_and]
    exact Nat.and_le_right
  unfold wordSize
  omega

theorem memDepth_lt (hdr : Header) : memDepth hdr < 2 ^ 16 := by
  have h : ((hdr >>> 4) &&& 0xffff).toNat ≤ 0xffff := by
    rw [BitVec.toNat_and]
    exact Nat.and_le_right
  unfold memDepth
  omega

/-- What the reply makes `query()` reserve. -/
def QueryReply.siz (q : QueryReply) : ℕ := (2 * memDepth q.hdr + 1) * wordSize q.hdr

def adoptAll (d : Drv) (qs : List QueryReply) : Drv := qs.foldl (fun d q => (d.adopt q.hdr).2) d

theorem adopt_valid (d : Drv) (q : QueryReply) :
    (d.adopt q.hdr).1 = none ∧ (d.adopt q.hdr).2.wordSize = wordSize q.hdr ∧
      (d.adopt q.hdr).2.memDepth = memDepth q.hdr ∧
      (d.adopt q.hdr).2.bufSz = max d.bufSz q.siz := by
  have hs : u32 ((2 * memDepth q.hdr + 1) * wordSize q.hdr) = q.siz := by
    have h1 := wordSize_le q.hdr
    have h2 := memDepth_lt q.hdr
    have hm : (2 * memDepth q.hdr + 1) * wordSize q.hdr ≤ 2 ^ 17 * 16 :=
      Nat.mul_le_mul (by omega) h1
    exact u32_of_lt (by omega)
  have h4 : ¬ wordSize q.hdr < 4 := Nat.not_lt.mpr q.valid
  by_cases h : q.siz > d.bufSz
  · simp [Drv.adopt, h4, hs, h, max_eq_right h.le]
  · simp [Drv.adopt, h4, hs, h, max_eq_left (Nat.le_of_not_lt h)]

theorem adoptAll_bufSz (d : Drv) (qs : List QueryReply) :
    (adoptAll d qs).bufSz = qs.foldl (fun m q => max m q.siz) d.bufSz := by
  induction qs generalizing d with
  | nil => rfl
  | cons q qs ih =>
    have h := ih (d.adopt q.hdr).2
    rw [(adopt_valid d q).2.2.2] at h
    exact h

theorem le_foldl_max (qs : List QueryReply) (m : ℕ) :
    m ≤ qs.foldl (fun m q => max m q.siz) m := by
  induction qs generalizing m with
  | nil => exact le_rfl
  | cons q qs ih => exact (le_max_left _ _).trans (ih _)

/-- What decides the sizes of one connection: the driver, the `-M` option, and the
query replies before the connection, at its `allocBufs` and since then. -/
structure Session where
  kind : DrvKind
  maxVecLen : ℕ
  before : List QueryReply
  atAlloc : QueryReply
  since : List QueryReply

/-- The driver when `allocBufs` reads its parameters. -/
def Session.drvAlloc (s : Session) (txBuf : Mem) (xid : Xid) : Drv :=
  adoptAll (Drv.new txBuf xid) (s.before ++ [s.atAlloc])

/-- The driver when it is called. -/
def Session.drv (s : Session) (txBuf : Mem) (xid : Xid) : Drv :=
  adoptAll (s.drvAlloc txBuf xid) s.since

def Session.sup (s : Session) (txBuf : Mem) (xid : Xid) : ℕ :=
  let d := s.drvAlloc txBuf xid
  supVecLen s.maxVecLen d.tgtVecLen (s.kind.getMaxVectorSize d.wordSize)

/-- Every message of every accepted request fits the reserved buffer. -/
def Session.TxBufHolds (s : Session) (txBuf : Mem) (xid : Xid) : Prop :=
  ∀ bits, bits < 2 ^ 32 → vecBytes bits ≤ s.maxVecLen → ∀ rounds x,
    ∀ c ∈ callsOf (s.sup txBuf xid) rounds bits x,
      bytesTot (s.drv txBuf xid).wordSize c.bits ≤ (s.drv txBuf xid).bufSz

/-- The word size in force: the one of the last query reply. -/
def Session.wordSize (s : Session) : ℕ :=
  JtagDriver.wordSize ((s.atAlloc :: s.since).getLast (by simp)).hdr

/-- The longest vector a request can make the connection send, in octets: bounded
by the `-M` option, by the target and the driver as seen at `allocBufs`, and by
the 32-bit count of the request. -/
def Session.longest (s : Session) : ℕ :=
  let w := JtagDriver.wordSize s.atAlloc.hdr
  min (min s.maxVecLen (supVecLen s.maxVecLen (JtagDriver.memDepth s.atAlloc.hdr * w)
    (s.kind.getMaxVectorSize w))) (2 ^ 29 - 1)

/-- The largest of the sizes the query replies made the driver reserve. -/
def Session.reserved (s : Session) : ℕ :=
  (s.before ++ [s.atAlloc] ++ s.since).foldl (fun m q => max m q.siz) 2048

section

variable (s : Session) (txBuf : Mem) (xid : Xid)

theorem adoptAll_append (d : Drv) (qs qs' : List QueryReply) :
    adoptAll d (qs ++ qs') = adoptAll (adoptAll d qs) qs' := by
  simp [adoptAll]

theorem Session.drv_bufSz : (s.drv txBuf xid).bufSz = s.reserved := by
  rw [Session.drv, Session.drvAlloc, ← adoptAll_append, adoptAll_bufSz]
  rfl

theorem Session.drv_wordSize : (s.drv txBuf xid).wordSize = s.wordSize := by
  obtain ⟨qs, q, hq⟩ : ∃ qs q, s.atAlloc :: s.since = qs ++ [q] :=
    ⟨_, _, (List.dropLast_append_getLast (by simp)).symm⟩
  have hall : s.before ++ [s.atAlloc] ++ s.since = s.before ++ qs ++ [q] := by
    rw [List.append_assoc, List.append_assoc, ← hq]
    rfl
  rw [Session.drv, Session.drvAlloc, ← adoptAll_append, hall, adoptAll_append]
  simp only [Session.wordSize, hq, List.getLast_append_singleton]
  exact (adopt_valid _ q).2.1

theorem Session.sup_eq : s.sup txBuf xid =
    supVecLen s.maxVecLen
      (JtagDriver.memDepth s.atAlloc.hdr * JtagDriver.wordSize s.atAlloc.hdr)
      (s.kind.getMaxVectorSize (JtagDriver.wordSize s.atAlloc.hdr)) := by
  have h := adopt_valid (adoptAll (Drv.new txBuf xid) s.before) s.atAlloc
  have ha : s.drvAlloc txBuf xid =
      ((adoptAll (Drv.new txBuf xid) s.before).adopt s.atAlloc.hdr).2 := by
    rw [Session.drvAlloc, adoptAll_append]
    rfl
  have hm : JtagDriver.memDepth s.atAlloc.hdr * JtagDriver.wordSize s.atAlloc.hdr ≤
      2 ^ 16 * 16 := Nat.mul_le_mul (memDepth_lt _).le (wordSize_le _)
  simp only [Session.sup, Drv.tgtVecLen, ha, h.2.1, h.2.2.1]
  rw [u32_of_lt (by omega)]

theorem Session.longest_eq :
    s.longest = min (min s.maxVecLen (s.sup txBuf xid)) (2 ^ 29 - 1) := by
  rw [s.sup_eq]
  rfl

theorem Session.wordSize_bounds : 4 ≤ s.wordSize ∧ s.wordSize ≤ 16 :=
  ⟨QueryReply.valid _, wordSize_le _⟩

theorem Session.bytesCeil_call_le {bits rounds : ℕ} {x : Xid} {c : Call}
    (hacc : vecBytes bits ≤ s.maxVecLen) (hc : c ∈ callsOf (s.sup txBuf xid) rounds bits x) :
    bytesCeil c.bits ≤ s.longest := by
  have hn := (call_bits_le hc).1
  have hlt := vecBytes_lt bits
  have hv : vecLen (vecBytes bits) (s.sup txBuf xid) ≤ s.longest := by
    rw [s.longest_eq txBuf xid]
    unfold vecLen
    split_ifs <;> omega
  unfold bytesCeil
  omega

theorem Session.exists_longest_call (hpos : 0 < s.longest) (x : Xid) :
    8 * s.longest < 2 ^ 32 ∧ vecBytes (8 * s.longest) ≤ s.maxVecLen ∧
      ∃ c ∈ callsOf (s.sup txBuf xid) 1 (8 * s.longest) x, c.bits = 8 * s.longest := by
  have hl := s.longest_eq txBuf xid
  have hb : 8 * s.longest ≤ 0xFFFFFFF8 := by omega
  have hv : vecBytes (8 * s.longest) = s.longest := by
    rw [vecBytes_eq hb]
    unfold bytesCeil
    omega
  refine ⟨by omega, by omega, _, first_call x (by omega), ?_⟩
  simp only [bitsSent_first hb]
  omega

theorem Session.txBufHolds_of_le (h : msgOctets s.wordSize (8 * s.longest) ≤ s.reserved) :
    s.TxBufHolds txBuf xid := by
  have h16 := s.wordSize_bounds.2
  have h4 := s.wordSize_bounds.1
  have hlen : bytesCeil (8 * s.longest) = s.longest := by unfold bytesCeil; omega
  intro bits hlt hacc rounds x c hc
  have hle := (call_bits_le hc).2
  rw [s.drv_bufSz, s.drv_wordSize, bytesTot_eq_msgOctets (by omega) h16 (by omega)]
  exact (msgOctets_mono _ ((s.bytesCeil_call_le txBuf xid hacc hc).trans hlen.ge)).trans h

end

/-- The transmit buffer holds every message of a connection exactly when a header
word and twice the longest vector, in words of the size in force, stay within
2048 octets or what some query reply made the driver reserve. -/
theorem txBuf_holds_iff (s : Session) (txBuf : Mem) (xid : Xid) :
    s.TxBufHolds txBuf xid ↔ msgOctets s.wordSize (8 * s.longest) ≤ s.reserved := by
  refine ⟨fun h => ?_, s.txBufHolds_of_le txBuf xid⟩
  obtain ⟨h4, h16⟩ := s.wordSize_bounds
  rcases Nat.eq_zero_or_pos s.longest with h0 | hpos
  · have hm : msgOctets s.wordSize (8 * s.longest) = s.wordSize := by
      have hd : (0 + s.wordSize - 1) / s.wordSize = 0 := Nat.div_eq_of_lt (by omega)
      rw [h0, msgOctets, show bytesCeil (8 * 0) = 0 from rfl, hd]
      simp
    have hr : 2048 ≤ s.reserved := le_foldl_max _ _
    omega
  · obtain ⟨hlt, hacc, c, hc, hbits⟩ := s.exists_longest_call txBuf xid hpos xid
    have hfit := h _ hlt hacc 1 xid c hc
    rwa [hbits, s.drv_bufSz, s.drv_wordSize, bytesTot_eq_msgOctets (by omega) h16 hlt] at hfit

/-- The loopback driver reports no limit and no memory: with the default `-M` a
request of 32768 octets makes a message of 65540 octets in a buffer of 2048. -/
theorem loopback_overruns_txBuf :
    ¬ Session.TxBufHolds ⟨.loopback, 32768, [], ⟨0x00000003, by decide⟩, []⟩ (fun _ => 0) 0 := by
  intro h
  have hfit := h (8 * 32768) (by decide) (by decide) 1 0 _ (first_call 0 (by decide))
  exact absurd hfit (by decide)

end XvcSupport.XvcConn
