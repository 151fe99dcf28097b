import XvcSupport.TxBuffer

namespace XvcSupport.XvcConn

open JtagDriver AxisToJtag

/-- The header the server reads in the reply to its query. -/
def queryReply (g : Generics) : Header :=
  (setQueryData g (mkQuery.setWidth g.W)).setWidth 32

theorem wordSize_setQueryData (g : Generics) (data : BitVec g.W) :
    JtagDriver.wordSize ((setQueryData g data).setWidth 32) = g.axisWidth := by
  have hW := g.le_W
  have h4 := g.four_le
  have h16 := g.le_sixteen
  rw [wordSize_eq_extract, extractLsb'_setWidth_low _ (by decide), setQueryData,
    extractLsb'_putSlice_of_disjoint _ _ _ (by omega) (by omega),
    extractLsb'_putSlice_of_disjoint _ _ _ (by omega) (by omega),
    extractLsb'_putSlice_self _ _ _ (by omega), BitVec.toNat_ofNat, Nat.mod_eq_of_lt (by omega)]
  omega

theorem memDepth_setQueryData (g : Generics) (data : BitVec g.W) :
    JtagDriver.memDepth ((setQueryData g data).setWidth 32) = g.memDepth := by
  have hW := g.le_W
  have hd := g.memDepth_lt
  rw [memDepth_eq_extract, extractLsb'_setWidth_low _ (by decide), setQueryData,
    extractLsb'_putSlice_of_disjoint _ _ _ (by omega) (by omega),
    extractLsb'_putSlice_self _ _ _ (by omega), BitVec.toNat_ofNat, Nat.mod_eq_of_lt hd]

/-- The driver after a query answered by the target. -/
def afterQuery (d : Drv) (g : Generics) : Drv := (d.adopt (queryReply g)).2

theorem afterQuery_tgtVecLen (d : Drv) (g : Generics) :
    (afterQuery d g).tgtVecLen = g.memDepth * g.axisWidth := by
  have hw : JtagDriver.wordSize (queryReply g) = g.axisWidth := wordSize_setQueryData g _
  have hd : JtagDriver.memDepth (queryReply g) = g.memDepth := memDepth_setQueryData g _
  obtain ⟨-, h1, h2, -⟩ := adopt_valid d ⟨queryReply g, hw ▸ g.four_le⟩
  have hm : g.memDepth * g.axisWidth ≤ 2 ^ 16 * 16 :=
    Nat.mul_le_mul g.memDepth_lt.le g.le_sixteen
  rw [Drv.tgtVecLen, afterQuery, h1, h2]
  dsimp only
  rw [hw, hd]
  exact u32_of_lt (by omega)

def Call.word (c : Call) (g : Generics) (txBuf : Mem) : BitVec g.W :=
  packLE g.W (slice (setHdr txBuf g.axisWidth c.hdr) 0 g.axisWidth)

/-- The firmware reads the version, the command, the driver's new transaction ID
and the number of bits, and accepts the length. -/
def Call.ReadsBack (c : Call) (g : Generics) (txBuf : Mem) : Prop :=
  let w := c.word g txBuf
  AxisToJtagPkg.getVersion w = AxisToJtagPkg.proVersn ∧
    AxisToJtagPkg.getCommand w = AxisToJtagPkg.cmdTrans ∧
    AxisToJtagPkg.getXid w = c.xid ∧ c.xid ≠ 0 ∧ c.xid ≠ c.prev ∧
    (AxisToJtagPkg.getLen w).toNat + 1 = c.bits ∧ checkLen g w = true

theorem Call.word_eq (c : Call) (g : Generics) (txBuf : Mem) :
    c.word g txBuf = c.hdr.setWidth g.W := packLE_setHdr txBuf g.four_le g.le_sixteen c.hdr

theorem Call.readsBack_of_le {c : Call} {g : Generics} {a : ℕ} (ha : g.W = 2 ^ a) (txBuf : Mem)
    (hx : c.xid = newXid c.prev) (hh : c.hdr = mkShift c.xid c.bits) (h1 : 1 ≤ c.bits)
    (h20 : c.bits ≤ 2 ^ 20) (hmem : g.memDepth = 0 ∨ c.bits ≤ g.W * g.memDepth) :
    c.ReadsBack g txBuf := by
  have hW := g.le_W
  have hlen : (AxisToJtagPkg.getLen (c.hdr.setWidth g.W)).toNat + 1 = c.bits := by
    rw [AxisToJtagPkg.getLen, extractLsb'_setWidth_high _ hW (by decide), ← AxisToJtagPkg.getLen,
      hh, getLen_mkShift c.xid h1 (by omega), Nat.mod_eq_of_lt (by omega)]
    omega
  rw [Call.ReadsBack, c.word_eq]
  refine ⟨?_, ?_, ?_, ?_, ?_, hlen, ?_⟩
  · rw [AxisToJtagPkg.getVersion, extractLsb'_setWidth_high _ hW (by decide), hh]
    exact getVersion_mkShift c.xid h1 h20
  · rw [AxisToJtagPkg.getCommand, extractLsb'_setWidth_high _ hW (by decide), hh]
    exact getCommand_mkShift c.xid h1 h20
  · rw [AxisToJtagPkg.getXid, extractLsb'_setWidth_high _ hW (by decide), hh]
    exact getXid_mkShift c.xid h1 h20
  · rw [hx]; exact newXid_ne_zero _
  · rw [hx]; exact newXid_ne_self _
  · rw [checkLen_iff g ha, hlen]
    refine hmem.imp_right fun h => ?_
    exact ceil_le (by omega) (by rwa [Nat.mul_comm] at h)

/-- A longer call never does: its length field wraps around. -/
theorem Call.not_readsBack_of_lt {c : Call} {g : Generics} (txBuf : Mem)
    (hh : c.hdr = mkShift c.xid c.bits) (h20 : 2 ^ 20 < c.bits) (h32 : c.bits < 2 ^ 32) :
    ¬ c.ReadsBack g txBuf := by
  rintro ⟨-, -, -, -, -, hlen, -⟩
  rw [c.word_eq, AxisToJtagPkg.getLen, extractLsb'_setWidth_high _ g.le_W (by decide),
    ← AxisToJtagPkg.getLen, hh, getLen_mkShift c.xid (by omega) h32] at hlen
  omega

theorem supVecLen_pos {maxVecLen tgtVecLen limit : ℕ} (h : 0 < maxVecLen) :
    0 < supVecLen maxVecLen tgtVecLen limit := by
  unfold supVecLen
  dsimp only
  split_ifs <;> omega

/-- The firmware reads back the header of every call of a request exactly when no
call exceeds the 20 bits of the length field: the request itself is short enough,
or the target (without memory: the `-M` option) or the driver limits chunks to
2^17 octets. -/
theorem header_reads_back_iff (g : Generics) {a : ℕ} (ha : g.W = 2 ^ a) (d : Drv) (txBuf : Mem)
    (maxVecLen limit bits : ℕ) (h1 : 1 ≤ bits) (h2 : bits ≤ 0xFFFFFFF8)
    (hacc : vecBytes bits ≤ maxVecLen) :
    (∀ rounds x, ∀ c ∈ callsOf (supVecLen maxVecLen (afterQuery d g).tgtVecLen limit) rounds bits x,
      c.ReadsBack g txBuf) ↔
    bits ≤ 2 ^ 20 ∨ (if g.memDepth = 0 then maxVecLen else g.memDepth * g.axisWidth) ≤ 2 ^ 17 ∨
      (0 < limit ∧ limit ≤ 2 ^ 17) := by
  have hv := vecBytes_eq h2
  have hlt := vecBytes_lt bits
  have hax := g.four_le
  have hpos : 0 < vecBytes bits := by rw [hv]; unfold bytesCeil; omega
  rw [afterQuery_tgtVecLen]
  set sup := supVecLen maxVecLen (g.memDepth * g.axisWidth) limit with hsup
  have hsup0 : 0 < sup := supVecLen_pos (by omega)
  have hz : g.memDepth * g.axisWidth = 0 ↔ g.memDepth = 0 := by
    rw [Nat.mul_eq_zero]
    omega
  -- the longest call carries all the bits, or as many as the supported length has
  have hcond : min bits (8 * sup) ≤ 2 ^ 20 ↔ bits ≤ 2 ^ 20 ∨
      (if g.memDepth = 0 then maxVecLen else g.memDepth * g.axisWidth) ≤ 2 ^ 17 ∨
        (0 < limit ∧ limit ≤ 2 ^ 17) := by
    rw [hsup, supVecLen]
    simp only [hz]
    split_ifs <;> omega
  rw [← hcond]
  constructor
  · intro h
    by_contra hcon
    have hfirst : _ ∈ callsOf sup 1 bits 0 := first_call 0 h1
    refine Call.not_readsBack_of_lt (g := g) txBuf rfl ?_ ?_ (h 1 0 _ hfirst)
    · simp only [bitsSent_first h2]; omega
    · simp only [bitsSent_first h2]; omega
  · intro h rounds x c hc
    obtain ⟨hx, hh, left, h0, hl, hb⟩ := callsOf_spec hc
    have hvl : 0 < vecLen (vecBytes bits) sup ∧ vecLen (vecBytes bits) sup < 2 ^ 29 ∧
        vecLen (vecBytes bits) sup ≤ sup := by
      unfold vecLen
      split_ifs <;> omega
    have hle := bitsSent_le (vecLen (vecBytes bits) sup) left
    refine Call.readsBack_of_le ha txBuf hx hh ?_ (by omega) ?_
    · rw [hb]
      exact bitsSent_pos hvl.1 hvl.2.1 h0
    · by_cases hd : g.memDepth = 0
      · exact Or.inl hd
      · have hs : sup ≤ g.memDepth * g.axisWidth := by
          rw [hsup, supVecLen]
          simp only [hz, hd, if_false]
          split_ifs <;> omega
        have hW := g.W_mul g.memDepth
        exact Or.inr (by omega)

/-- A target of four-octet words and 16 words of memory. -/
def smallTarget : Generics where
  axisWidth := 4
  memDepth := 16
  tckBits := 0
  four_le := by decide
  le_sixteen := by decide
  memDepth_lt := by decide

/-- A streaming target of four-octet words. -/
def streamTarget : Generics where
  axisWidth := 4
  memDepth := 0
  tckBits := 0
  four_le := by decide
  le_sixteen := by decide
  memDepth_lt := by decide

theorem header_reads_back_smallTarget :
    (∀ rounds x, ∀ c ∈ callsOf (supVecLen 32768
        (afterQuery (Drv.new (fun _ => 0) 0) smallTarget).tgtVecLen 0) rounds 1000 x,
      c.ReadsBack smallTarget (fun _ => 0)) ↔
    1000 ≤ 2 ^ 20 ∨ (if smallTarget.memDepth = 0 then 32768
      else smallTarget.memDepth * smallTarget.axisWidth) ≤ 2 ^ 17 ∨ (0 < 0 ∧ 0 ≤ 2 ^ 17) :=
  header_reads_back_iff smallTarget (a := 5) (by decide) (Drv.new (fun _ => 0) 0) (fun _ => 0)
    32768 0 1000 (by decide) (by decide) (by decide)

/-- With `-M 200000` a streaming target gets 1600000 bits in one message, and the
length field holds 551423. -/
theorem stream_header_wraps :
    ¬ ∀ rounds x, ∀ c ∈ callsOf (supVecLen 200000
        (afterQuery (Drv.new (fun _ => 0) 0) streamTarget).tgtVecLen 0) rounds 1600000 x,
      c.ReadsBack streamTarget (fun _ => 0) := by
  intro h
  rw [afterQuery_tgtVecLen] at h
  refine Call.not_readsBack_of_lt (fun _ => 0) rfl ?_ ?_ (h 1 0 _ (first_call 0 (by decide)))
  · decide
  · decide

end XvcSupport.XvcConn
