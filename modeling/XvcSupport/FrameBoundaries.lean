import XvcSupport.FifoFrames

namespace XvcSupport

open RegisterDriver FifoDriver JtagDriver

theorem extract_packLE (m : Mem) (p : ℕ) {n r : ℕ} (hn : r < n) (hr : r < 4) :
    (packLE 32 (slice m p n)).extractLsb' (8 * r) 8 = m (p + r) := by
  apply BitVec.eq_of_getLsbD_eq
  intro i hi
  have hdiv : (8 * r + i) / 8 = r := by omega
  have hmod : (8 * r + i) % 8 = i := by omega
  rw [BitVec.getLsbD_extractLsb', getLsbD_packLE _ (by omega), hdiv, hmod, getD_slice m p hn]
  simp [hi]

namespace JtagDriverTmemFifo

theorem getLsbD_bswap32 (w : BitVec 32) {i : ℕ} (hi : i < 32) :
    (bswap32 w).getLsbD i = w.getLsbD (8 * (3 - i / 8) + i % 8) := by
  have hlen : i / 8 < ((unpackLE 4 w).reverse).length := by
    rw [List.length_reverse, unpackLE_length]
    omega
  have hmod : i % 8 < 8 := Nat.mod_lt i (by decide)
  rw [bswap32, getLsbD_packLE _ hi, List.getD_eq_getElem _ _ hlen, List.getElem_reverse]
  simp [unpackLE, hmod]

@[simp] theorem bswap32_bswap32 (w : BitVec 32) : bswap32 (bswap32 w) = w := by
  apply BitVec.eq_of_getLsbD_eq
  intro i hi
  have hback : 8 * (3 - (8 * (3 - i / 8) + i % 8) / 8) + (8 * (3 - i / 8) + i % 8) % 8 = i := by
    omega
  rw [getLsbD_bswap32 _ hi, getLsbD_bswap32 _ (by omega), hback]

end JtagDriverTmemFifo

/-- The drop that is simulated for every 256th reply. -/
def drops (drEn : Bool) (t : Transfer Fifo) : Bool := drEn && ((t.drop + 1) &&& 0xff == 0)

/-- The request went out as one frame, and the whole reply, of which `least got hsize size` octets
are passed on behind the header, is read. -/
structure OnBoundary (ord : BitVec 32 → BitVec 32) (dat : ℕ → BitVec 32) (txb : Mem)
    (txBytes hsize size got : BitVec 32) (t t' : Transfer Fifo) : Prop where
  frame : ∃ ws, t'.dev.frames = t.dev.frames ++ [t.dev.out ++ ws] ∧ t'.dev.out = [] ∧
    ws.length = wordsFor txBytes.toNat ∧
    ∀ j < txBytes.toNat, octets ord (fun k => ws.getD k 0) 0 j = txb j
  hdbuf : t'.hdbuf = memcpy t.hdbuf 0 (octets ord dat t.dev.reads) 0 hsize.toNat
  rxb : t'.rxb = memcpy t.rxb 0 (octets ord dat t.dev.reads) hsize.toNat
    (min (got - hsize).toNat size.toNat)
  reads : t'.dev.reads = t.dev.reads + wordsFor got.toNat

/-- With enough fuel the transfer ends on the boundary and returns the number of octets that are
passed on, or drops the reply. -/
def Meets (ord : BitVec 32 → BitVec 32) (dat : ℕ → BitVec 32) (drEn : Bool) (txb : Mem)
    (txBytes hsize size got : BitVec 32) (t : Transfer Fifo)
    (run : ℕ → Xfer Fifo (ℤ × Transfer Fifo)) : Prop :=
  ∃ fuel₀, ∀ fuel ≥ fuel₀, ∃ t', OnBoundary ord dat txb txBytes hsize size got t t' ∧
    run fuel = if drops drEn t then Run.threw (Err.timeoutErr, t')
      else Run.returned (((min (got - hsize).toNat size.toNat : ℕ) : ℤ), t')

/-- There is a reply, and the unsigned counters and the returned number do not overflow. -/
structure Fits (txBytes hsize size got : BitVec 32) (dropped : Bool) : Prop where
  reply : got ≠ 0
  request : txBytes.toNat ≤ 2 ^ 32 - 4
  excess : (got - hsize).toNat ≤ 2 ^ 32 - 4
  int : dropped = false → min (got - hsize).toNat size.toNat < 2 ^ 31

theorem toNat_least (got hsize size : BitVec 32) :
    (least got hsize size).toNat = min (got - hsize).toNat size.toNat := by
  unfold least
  split_ifs with hlt
  · rw [Nat.min_eq_right (Nat.le_of_lt (BitVec.lt_def.mp hlt))]
  · rw [Nat.min_eq_left (Nat.le_of_not_lt fun h => hlt (BitVec.lt_def.mpr h))]

/-- The transfer before `finish`, the words `ws` being sent. -/
def Transfer.final (ord : BitVec 32 → BitVec 32) (dat : ℕ → BitVec 32) (t : Transfer Fifo)
    (ws : List (BitVec 32)) (polls : ℕ) (hsize size got : BitVec 32) : Transfer Fifo :=
  { t with
    hdbuf := memcpy t.hdbuf 0 (octets ord dat t.dev.reads) 0 hsize.toNat
    rxb := memcpy t.rxb 0 (octets ord dat t.dev.reads) hsize.toNat (least got hsize size).toNat
    dev :=
      { out := []
        frames := t.dev.frames ++ [t.dev.out ++ ws]
        polls := t.dev.polls + polls
        reads := t.dev.reads + wordsFor got.toNat } }

def Transfer.counted (drEn : Bool) (t : Transfer Fifo) : Transfer Fifo :=
  { t with drop := if drEn then t.drop + 1 else t.drop }

theorem finish_eq (drEn : Bool) (min : BitVec 32) (t : Transfer Fifo) :
    finish drEn min t = if drops drEn t then Run.threw (.timeoutErr, t.counted drEn)
      else Run.returned (min.toInt, t.counted drEn) := by
  cases drEn
  · rfl
  · simp only [finish, drops, Transfer.counted, if_true, Bool.true_and, beq_iff_eq]

/-- What the two drivers do with a reply of `got` octets when `ws` is sent. -/
structure Outcome (ord : BitVec 32 → BitVec 32) (dat : ℕ → BitVec 32) (drEn : Bool)
    (ws : List (BitVec 32)) (hsize size got : BitVec 32) (t : Transfer Fifo)
    (run : ℕ → Xfer Fifo (ℤ × Transfer Fifo)) (fuel₀ polls : ℕ) : Prop where
  empty : got = 0 → ∀ fuel ≥ fuel₀, ∃ msg t', run fuel = Run.threw (.protoErr msg, t')
  overflow : got ≠ 0 → 2 ^ 32 - 4 < (got - hsize).toNat → ∀ fuel ≥ fuel₀, run fuel = Run.running
  final : got ≠ 0 → (got - hsize).toNat ≤ 2 ^ 32 - 4 → ∀ fuel ≥ fuel₀,
    run fuel = finish drEn (least got hsize size) (t.final ord dat ws polls hsize size got)

section

variable {ord : BitVec 32 → BitVec 32} {dat : ℕ → BitVec 32} {drEn : Bool} {txb : Mem}
  {ws : List (BitVec 32)} {txBytes hsize size got : BitVec 32} {t : Transfer Fifo}
  {run : ℕ → Xfer Fifo (ℤ × Transfer Fifo)} {fuel₀ polls : ℕ}

theorem Transfer.final_onBoundary (drEn : Bool) (polls : ℕ)
    (hlength : ws.length = wordsFor txBytes.toNat)
    (hwords : ∀ j < txBytes.toNat, octets ord (fun k => ws.getD k 0) 0 j = txb j) :
    OnBoundary ord dat txb txBytes hsize size got t
      ((t.final ord dat ws polls hsize size got).counted drEn) where
  frame := ⟨ws, rfl, rfl, hlength, hwords⟩
  hdbuf := rfl
  rxb := by
    rw [← toNat_least]
    rfl
  reads := rfl

theorem toInt_eq_iff (w : BitVec 32) : w.toInt = (w.toNat : ℤ) ↔ w.toNat < 2 ^ 31 := by
  rw [BitVec.toInt_eq_toNat_cond]
  split_ifs with hlt <;> omega

theorem Transfer.final_frame {t' : Transfer Fifo}
    (h : OnBoundary ord dat txb txBytes hsize size got t t')
    (heq : t' = (t.final ord dat ws polls hsize size got).counted drEn) :
    ws.length = wordsFor txBytes.toNat := by
  obtain ⟨ws', hframes, -, hlength, -⟩ := h.frame
  have hsame : t.dev.frames ++ [t.dev.out ++ ws] = t.dev.frames ++ [t.dev.out ++ ws'] := by
    rw [← hframes, heq]
    rfl
  have hlast := List.append_cancel_left hsame
  rw [List.append_cancel_left (List.singleton_inj.mp hlast), hlength]

/-- A driver whose words are right for every request that fits meets the boundary exactly for the
transfers that fit. -/
theorem Outcome.meets_iff (h : Outcome ord dat drEn ws hsize size got t run fuel₀ polls)
    (hlength : ws.length = wordsFor txBytes.toNat ↔ txBytes.toNat ≤ 2 ^ 32 - 4)
    (hwords : txBytes.toNat ≤ 2 ^ 32 - 4 →
      ∀ j < txBytes.toNat, octets ord (fun k => ws.getD k 0) 0 j = txb j) :
    Meets ord dat drEn txb txBytes hsize size got t run ↔
      Fits txBytes hsize size got (drops drEn t) := by
  constructor
  · rintro ⟨fuel₁, hmeets⟩
    obtain ⟨t', hbound, hrun⟩ := hmeets (max fuel₀ fuel₁) (le_max_right _ _)
    have hfuel : max fuel₀ fuel₁ ≥ fuel₀ := le_max_left _ _
    -- a run that returns, or throws for a dropped reply only, has got a reply that fits
    have hreply : got ≠ 0 := by
      intro hzero
      obtain ⟨msg, t₁, hthrew⟩ := h.empty hzero _ hfuel
      rw [hthrew] at hrun
      split_ifs at hrun
      · cases hrun
      · cases hrun
    have hexcess : (got - hsize).toNat ≤ 2 ^ 32 - 4 := by
      by_contra hlt
      rw [h.overflow hreply (by omega) _ hfuel] at hrun
      split_ifs at hrun
      · cases hrun
      · cases hrun
    rw [h.final hreply hexcess _ hfuel, finish_eq, ← toNat_least] at hrun
    have hdrop : drops drEn (t.final ord dat ws polls hsize size got) = drops drEn t := rfl
    rw [hdrop] at hrun
    -- what the run leaves on the bus says how long the request was
    split_ifs at hrun with hdropped
    · have hsame := congrArg Prod.snd (Except.error.inj (Option.some.inj hrun))
      refine ⟨hreply, hlength.mp (Transfer.final_frame hbound hsame.symm), hexcess, ?_⟩
      simp [hdropped]
    · have hsame := Prod.mk.inj (returned_inj hrun)
      refine ⟨hreply, hlength.mp (Transfer.final_frame hbound hsame.2.symm), hexcess, fun _ => ?_⟩
      rw [← toNat_least]
      exact (toInt_eq_iff _).mp hsame.1
  · intro hfits
    refine ⟨fuel₀, fun fuel hfuel => ⟨_, Transfer.final_onBoundary drEn polls
      (hlength.mpr hfits.request) (hwords hfits.request), ?_⟩⟩
    rw [h.final hfits.reply hfits.excess fuel hfuel, finish_eq, ← toNat_least]
    have hdrop : drops drEn (t.final ord dat ws polls hsize size got) = drops drEn t := rfl
    rw [hdrop]
    cases hdropped : drops drEn t with
    | true => rfl
    | false =>
      have hlt := hfits.int hdropped
      rw [← toNat_least] at hlt
      rw [(toInt_eq_iff _).mpr hlt]

/-- A transfer when `ws` is sent. -/
def Transfer.sending (t : Transfer Fifo) (ws : List (BitVec 32)) (polls : ℕ) : Transfer Fifo :=
  { t with
    dev :=
      { t.dev with
        out := []
        frames := t.dev.frames ++ [t.dev.out ++ ws]
        polls := t.dev.polls + polls } }

theorem outcome_of_receive {regs : Registers Fifo} {idx : ℕ} (ord : BitVec 32 → BitVec 32)
    (hdat : ∀ s, regs.rd idx s = (dat s.reads, { s with reads := s.reads + 1 }))
    (hmod : hsize % 4 = 0) (hle : hsize ≤ got) (hfuel : 2 ^ 32 ≤ fuel₀)
    (hrun : ∀ fuel ≥ fuel₀, run fuel =
      receive regs ord idx drEn hsize size got fuel (t.sending ws polls)) :
    Outcome ord dat drEn ws hsize size got t run fuel₀ polls := by
  have hmod' : hsize.toNat % 4 = 0 := by
    have h4 := congrArg BitVec.toNat hmod
    rwa [BitVec.toNat_umod] at h4
  have hlt := got.isLt
  constructor
  · intro hzero fuel hge
    refine ⟨"Didn't receive enough data for header", t.sending ws polls, ?_⟩
    rw [hrun fuel hge, receive, if_pos hzero]
  · intro hpos hexcess fuel hge
    rw [hrun fuel hge, receive_runs ord hdat drEn hmod' hle hpos hexcess (by omega)]
  · intro hpos hexcess fuel hge
    rw [hrun fuel hge, receive_eq ord hdat drEn hmod' hle hpos hexcess (by omega)]
    rfl

end

theorem sent_length (ord : BitVec 32 → BitVec 32) (txb : Mem) (n : ℕ) :
    (sent ord txb n).length = n := by
  simp [sent]

theorem sent_octets {ord : BitVec 32 → BitVec 32} (hord : ∀ w, ord (ord w) = w) (txb : Mem)
    (ws : List (BitVec 32)) {n j : ℕ} (hn : 4 * n ≤ 2 ^ 32) (hj : j < 4 * n) :
    octets ord (fun k => (sent ord txb n ++ ws).getD k 0) 0 j = txb j := by
  have hlt : j / 4 < n := by omega
  have hidx : 4 * (j / 4) % 2 ^ 32 + j % 4 = j := by omega
  have hword : (sent ord txb n ++ ws).getD (j / 4) 0 =
      ord (packLE 32 (slice txb (4 * (j / 4) % 2 ^ 32) 4)) := by
    rw [List.getD_append _ _ _ _ (by rw [sent_length]; exact hlt),
      List.getD_eq_getElem _ _ (by rw [sent_length]; exact hlt)]
    simp [sent]
  simp only [octets, Nat.zero_add, hword, hord]
  rw [extract_packLE txb _ (Nat.mod_lt j (by decide)) (Nat.mod_lt j (by decide)), hidx]

theorem txWords_toNat (txBytes : BitVec 32) :
    ((txBytes + 3) / 4).toNat = (txBytes.toNat + 3) % 2 ^ 32 / 4 := by
  rw [BitVec.toNat_udiv, BitVec.toNat_add]
  rfl

namespace JtagDriverZynqFifo

/-- The FIFO behind its registers; `sta` is what is read from the status register. -/
def fifo (sta : ℕ → BitVec 32) (cnt : BitVec 32) (dat : ℕ → BitVec 32) : Registers Fifo where
  rd idx s :=
    if idx = RX_STA_IDX then (sta s.polls, { s with polls := s.polls + 1 })
    else if idx = RX_CNT_IDX then (cnt, s)
    else if idx = RX_DAT_IDX then (dat s.reads, { s with reads := s.reads + 1 })
    else (0, s)
  wr idx w s :=
    if idx = TX_DAT_IDX then s.push w else if idx = TX_END_IDX then s.close else s

theorem outcome {sta : ℕ → BitVec 32} (got : BitVec 32) (dat : ℕ → BitVec 32) (drEn : Bool)
    (txb : Mem) (txBytes : BitVec 32) {hsize : BitVec 32} (size : BitVec 32) {t : Transfer Fifo}
    {n : ℕ} (hbusy : ∀ k < n, sta (t.dev.polls + k) &&& (1 : BitVec 32) <<< RX_RDY_SHF = 0)
    (hready : sta (t.dev.polls + n) &&& (1 : BitVec 32) <<< RX_RDY_SHF ≠ 0) (hmod : hsize % 4 = 0)
    (hle : hsize ≤ got) :
    Outcome id dat drEn (sent id txb ((txBytes + 3) / 4).toNat) hsize size got t
      (xfer (fifo sta got dat) drEn txb txBytes hsize size · t) (2 ^ 32 + n + 1) (n + 1) := by
  have hdat : ∀ s, (fifo sta got dat).rd RX_DAT_IDX s =
      (dat s.reads, { s with reads := s.reads + 1 }) := fun s => rfl
  apply outcome_of_receive id hdat hmod hle (by omega)
  intro fuel hfuel
  have hlt := ((txBytes + 3) / 4).isLt
  rw [xfer, if_neg (by simpa using hmod),
    writeWords_eq (fun w s => rfl) txb _ (show _ < fuel by omega)]
  simp only [returned_bind]
  rw [poll_eq (fun s => rfl) (n := n)]
  · rfl
  · exact fun k hk => decide_eq_false (not_not.mpr (hbusy k hk))
  · exact decide_eq_true hready
  · omega

/-- The transfer stays on frame boundaries just if nothing overflows. -/
theorem meets_iff {sta : ℕ → BitVec 32} (got : BitVec 32) (dat : ℕ → BitVec 32) (drEn : Bool)
    (txb : Mem) {txBytes hsize : BitVec 32} (size : BitVec 32) {t : Transfer Fifo}
    (hpos : txBytes ≠ 0)
    (hready : ∃ n, sta (t.dev.polls + n) &&& (1 : BitVec 32) <<< RX_RDY_SHF ≠ 0)
    (hmod : hsize % 4 = 0) (hle : hsize ≤ got) :
    Meets id dat drEn txb txBytes hsize size got t
        (xfer (fifo sta got dat) drEn txb txBytes hsize size · t) ↔
      Fits txBytes hsize size got (drops drEn t) := by
  have hbusy : ∀ k < Nat.find hready,
      sta (t.dev.polls + k) &&& (1 : BitVec 32) <<< RX_RDY_SHF = 0 :=
    fun k hk => not_not.mp (Nat.find_min hready hk)
  have hpos' : txBytes.toNat ≠ 0 := fun h => hpos (BitVec.eq_of_toNat_eq h)
  have hlt := txBytes.isLt
  apply (outcome got dat drEn txb txBytes size hbusy (Nat.find_spec hready) hmod hle).meets_iff
  · rw [sent_length, txWords_toNat, wordsFor]
    omega
  · intro hfits j hj
    rw [txWords_toNat]
    have hid : ∀ w : BitVec 32, id (id w) = w := fun w => rfl
    have hoctets := sent_octets hid txb []
      (show 4 * ((txBytes.toNat + 3) % 2 ^ 32 / 4) ≤ 2 ^ 32 by omega)
      (show j < 4 * ((txBytes.toNat + 3) % 2 ^ 32 / 4) by omega)
    rwa [List.append_nil] at hoctets

end JtagDriverZynqFifo

namespace JtagDriverTmemFifo

/-- The FIFO behind its registers; `csr` is what is read from the control and status register. -/
def fifo (csr dat : ℕ → BitVec 32) : Registers Fifo where
  rd idx s :=
    if idx = FIFO_CSR_IDX then (csr s.polls, { s with polls := s.polls + 1 })
    else if idx = FIFO_DAT_IDX then (dat s.reads, { s with reads := s.reads + 1 })
    else (0, s)
  wr idx w s :=
    if idx = FIFO_DAT_IDX then s.push w
    else if idx = FIFO_CSR_IDX ∧ w &&& FIFO_CSR_EOFO ≠ 0 then s.close
    else s

/-- The number of octets that a value of the register announces. -/
def count (csr : BitVec 32) : BitVec 32 := ((csr >>> FIFO_CSR_NWRDS) &&& FIFO_CSR_NWRDM) * wrdSiz

/-- The words of a request; the last one is padded. -/
def words (txb : Mem) (txBytes : BitVec 32) : List (BitVec 32) :=
  let txWords := (txBytes + 3) / 4 - 1
  let lastBytes := txBytes - 4 * txWords
  sent bswap32 txb txWords.toNat ++
    [bswap32 (packLE 32 (slice txb (4 * txWords).toNat lastBytes.toNat))]

theorem eofo (csr : BitVec 32) : (csr ||| FIFO_CSR_EOFO) &&& FIFO_CSR_EOFO ≠ 0 := by
  intro h
  have hbit := congrArg (BitVec.getLsbD · 16) h
  simp [FIFO_CSR_EOFO] at hbit

theorem txWords_pred_toNat (txBytes : BitVec 32) : ((txBytes + 3) / 4 - 1).toNat =
    ((txBytes.toNat + 3) % 2 ^ 32 / 4 + (2 ^ 32 - 1)) % 2 ^ 32 := by
  rw [BitVec.toNat_sub, txWords_toNat, Nat.add_comm]
  rfl

theorem lastBytes_toNat {txBytes : BitVec 32} (hpos : txBytes ≠ 0) :
    (txBytes - 4 * ((txBytes + 3) / 4 - 1)).toNat = (txBytes.toNat + 3) % 4 + 1 := by
  have hlt := txBytes.isLt
  have hpos' : txBytes.toNat ≠ 0 := fun h => hpos (BitVec.eq_of_toNat_eq h)
  have hmul : (4 * ((txBytes + 3) / 4 - 1)).toNat =
      4 * (((txBytes.toNat + 3) % 2 ^ 32 / 4 + (2 ^ 32 - 1)) % 2 ^ 32) % 2 ^ 32 := by
    rw [BitVec.toNat_mul, txWords_pred_toNat]
    rfl
  rw [BitVec.toNat_sub, hmul]
  omega

theorem lastBytes_ne_zero {txBytes : BitVec 32} (hpos : txBytes ≠ 0) :
    txBytes - 4 * ((txBytes + 3) / 4 - 1) ≠ 0 := by
  intro hzero
  have hlast := lastBytes_toNat hpos
  rw [hzero] at hlast
  exact absurd hlast (by simp)

theorem outcome {csr : ℕ → BitVec 32} (dat : ℕ → BitVec 32) (drEn : Bool)
    (txb : Mem) {txBytes hsize : BitVec 32} (size : BitVec 32) {t : Transfer Fifo} {n : ℕ}
    (hpos : txBytes ≠ 0) (hbusy : ∀ k < n, csr (t.dev.polls + 1 + k) &&& FIFO_CSR_EMPI ≠ 0)
    (hready : csr (t.dev.polls + 1 + n) &&& FIFO_CSR_EMPI = 0) (hmod : hsize % 4 = 0)
    (hle : hsize ≤ count (csr (t.dev.polls + 1 + n))) :
    Outcome bswap32 dat drEn (words txb txBytes) hsize size (count (csr (t.dev.polls + 1 + n))) t
      (xferFifo (fifo csr dat) drEn txb txBytes hsize size · t) (2 ^ 32 + n + 1) (n + 2) := by
  have hdat : ∀ s, (fifo csr dat).rd FIFO_DAT_IDX s =
      (dat s.reads, { s with reads := s.reads + 1 }) := fun s => rfl
  apply outcome_of_receive bswap32 hdat hmod hle (by omega)
  intro fuel hfuel
  have hlt := ((txBytes + 3) / 4 - 1).isLt
  have hlast := lastBytes_ne_zero hpos
  rw [xferFifo, if_neg (by simpa using hmod)]
  simp only [if_pos hlast]
  rw [writeWords_eq (fun w s => rfl) txb _ (show _ < fuel by omega)]
  simp only [returned_bind]
  have hpad : ∀ (u : Transfer Fifo) (w : BitVec 32),
      o32 (fifo csr dat) FIFO_DAT_IDX w u = u.written [w] := fun u w => rfl
  have hcsr : ∀ u, i32 (fifo csr dat) FIFO_CSR_IDX u = (csr u.dev.polls, u.polled 1) :=
    fun u => rfl
  -- EOFO closes the frame, whatever else the register held
  have hend : ∀ (u : Transfer Fifo) (w : BitVec 32),
      o32 (fifo csr dat) FIFO_CSR_IDX (w ||| FIFO_CSR_EOFO) u =
        { u with dev := u.dev.close } := by
    intro u w
    have hclose : (fifo csr dat).wr FIFO_CSR_IDX (w ||| FIFO_CSR_EOFO) u.dev = u.dev.close :=
      if_pos ⟨rfl, eofo w⟩
    rw [o32, hclose]
  simp only [hpad, hcsr, hend]
  rw [poll_eq (fun s => rfl) (n := n)]
  · rw [returned_bind]
    simp only [Transfer.written, Transfer.polled, Transfer.sending, Fifo.close, words,
      List.append_assoc, Nat.add_assoc, Nat.add_comm 1]
    rfl
  · exact fun k hk => decide_eq_false (hbusy k hk)
  · exact decide_eq_true hready
  · omega

theorem words_length {txBytes : BitVec 32} (hpos : txBytes ≠ 0) (txb : Mem) :
    (words txb txBytes).length = wordsFor txBytes.toNat ↔ txBytes.toNat ≤ 2 ^ 32 - 4 := by
  have hlt := txBytes.isLt
  have hpos' : txBytes.toNat ≠ 0 := fun h => hpos (BitVec.eq_of_toNat_eq h)
  simp only [words, List.length_append, sent_length, List.length_singleton, txWords_pred_toNat,
    wordsFor]
  omega

theorem words_octets {txBytes : BitVec 32} (hpos : txBytes ≠ 0) (txb : Mem)
    (hfits : txBytes.toNat ≤ 2 ^ 32 - 4) {j : ℕ} (hj : j < txBytes.toNat) :
    octets bswap32 (fun k => (words txb txBytes).getD k 0) 0 j = txb j := by
  have hpos' : txBytes.toNat ≠ 0 := fun h => hpos (BitVec.eq_of_toNat_eq h)
  have hn := txWords_pred_toNat txBytes
  by_cases hlast : j < 4 * ((txBytes + 3) / 4 - 1).toNat
  · exact sent_octets bswap32_bswap32 txb _ (by omega) hlast
  · -- the last word, which holds no more than the octets that are left
    have hdiv : j / 4 = ((txBytes + 3) / 4 - 1).toNat := by omega
    have hword : (words txb txBytes).getD (j / 4) 0 = bswap32 (packLE 32
        (slice txb (4 * ((txBytes + 3) / 4 - 1)).toNat
          (txBytes - 4 * ((txBytes + 3) / 4 - 1)).toNat)) := by
      simp only [words]
      rw [List.getD_append_right _ _ _ _ (by rw [sent_length]; omega), sent_length, hdiv,
        Nat.sub_self]
      rfl
    have hmul : (4 * ((txBytes + 3) / 4 - 1)).toNat = 4 * ((txBytes + 3) / 4 - 1).toNat := by
      rw [BitVec.toNat_mul]
      exact Nat.mod_eq_of_lt (by rw [show (4 : BitVec 32).toNat = 4 from rfl]; omega)
    have hidx : 4 * ((txBytes + 3) / 4 - 1).toNat + j % 4 = j := by omega
    simp only [octets, Nat.zero_add, hword, bswap32_bswap32]
    rw [extract_packLE txb _ (by rw [lastBytes_toNat hpos]; omega) (Nat.mod_lt j (by decide)),
      hmul, hidx]

/-- The transfer stays on frame boundaries just if nothing overflows. -/
theorem meets_iff {csr : ℕ → BitVec 32} (dat : ℕ → BitVec 32) (drEn : Bool) (txb : Mem)
    {txBytes hsize : BitVec 32} (size : BitVec 32) {t : Transfer Fifo} {n : ℕ}
    (hpos : txBytes ≠ 0) (hbusy : ∀ k < n, csr (t.dev.polls + 1 + k) &&& FIFO_CSR_EMPI ≠ 0)
    (hready : csr (t.dev.polls + 1 + n) &&& FIFO_CSR_EMPI = 0) (hmod : hsize % 4 = 0)
    (hle : hsize ≤ count (csr (t.dev.polls + 1 + n))) :
    Meets bswap32 dat drEn txb txBytes hsize size (count (csr (t.dev.polls + 1 + n))) t
        (xferFifo (fifo csr dat) drEn txb txBytes hsize size · t) ↔
      Fits txBytes hsize size (count (csr (t.dev.polls + 1 + n))) (drops drEn t) :=
  (outcome dat drEn txb size hpos hbusy hready hmod hle).meets_iff (words_length hpos txb)
    fun hfits _ hj => words_octets hpos txb hfits hj

end JtagDriverTmemFifo

abbrev always (w : BitVec 32) : ℕ → BitVec 32 := fun _ => w

/-- For every transfer the request is one frame and the reply is read to its end, just if there is
a reply and neither the counters nor the returned number overflow. -/
theorem fifo_boundaries (dat : ℕ → BitVec 32) (drEn : Bool) (txb : Mem)
    (txBytes hsize size : BitVec 32) (t : Transfer Fifo) (hpos : txBytes ≠ 0)
    (hmod : hsize % 4 = 0) :
    (∀ (sta : ℕ → BitVec 32) (got : BitVec 32),
      (∃ n, sta (t.dev.polls + n) &&& (1 : BitVec 32) <<< JtagDriverZynqFifo.RX_RDY_SHF ≠ 0) →
      hsize ≤ got →
      (Meets id dat drEn txb txBytes hsize size got t (JtagDriverZynqFifo.xfer
          (JtagDriverZynqFifo.fifo sta got dat) drEn txb txBytes hsize size · t) ↔
        Fits txBytes hsize size got (drops drEn t))) ∧
    (∀ (csr : ℕ → BitVec 32) (n : ℕ),
      (∀ k < n, csr (t.dev.polls + 1 + k) &&& JtagDriverTmemFifo.FIFO_CSR_EMPI ≠ 0) →
      csr (t.dev.polls + 1 + n) &&& JtagDriverTmemFifo.FIFO_CSR_EMPI = 0 →
      hsize ≤ JtagDriverTmemFifo.count (csr (t.dev.polls + 1 + n)) →
      (Meets JtagDriverTmemFifo.bswap32 dat drEn txb txBytes hsize size
          (JtagDriverTmemFifo.count (csr (t.dev.polls + 1 + n))) t (JtagDriverTmemFifo.xferFifo
          (JtagDriverTmemFifo.fifo csr dat) drEn txb txBytes hsize size · t) ↔
        Fits txBytes hsize size (JtagDriverTmemFifo.count (csr (t.dev.polls + 1 + n)))
          (drops drEn t))) := by
  constructor
  · intro sta got hready hle
    exact JtagDriverZynqFifo.meets_iff got dat drEn txb size hpos hready hmod hle
  · intro csr n hbusy hready hle
    exact JtagDriverTmemFifo.meets_iff dat drEn txb size hpos hbusy hready hmod hle

/-- A transfer before which nothing was sent or received. -/
def Transfer.fresh : Transfer Fifo where
  hdbuf := fun _ => 0
  rxb := fun _ => 0
  drop := 0
  dev := { out := [], frames := [], polls := 0, reads := 0 }

/-- The first transfer of zeros, the reply being ready at once. -/
def JtagDriverZynqFifo.FirstMeets (txBytes hsize size got : BitVec 32) : Prop :=
  Meets id (always 0) false (fun _ => 0) txBytes hsize size got Transfer.fresh
    (xfer (fifo (always 32) got (always 0)) false (fun _ => 0) txBytes hsize size ·
      Transfer.fresh)

/-- The first transfer of zeros, `csr` being read from the control and status register. -/
def JtagDriverTmemFifo.FirstMeets (txBytes hsize size csr : BitVec 32) : Prop :=
  Meets bswap32 (always 0) false (fun _ => 0) txBytes hsize size (count csr) Transfer.fresh
    (xferFifo (fifo (always csr) (always 0)) false (fun _ => 0) txBytes hsize size ·
      Transfer.fresh)

theorem fifo_boundaries_eight :
    JtagDriverZynqFifo.FirstMeets 12 4 4 8 ∧ JtagDriverTmemFifo.FirstMeets 12 4 4 2 :=
  have h := fifo_boundaries (always 0) false (fun _ => 0) 12 4 4 Transfer.fresh
    (by decide) (by decide)
  ⟨(h.1 (always 32) 8 ⟨0, by decide⟩ (by decide)).mpr
    ⟨by decide, by decide, by decide, fun _ => by decide⟩,
    (h.2 (always 2) 0 (fun k hk => absurd hk (Nat.not_lt_zero k)) (by decide) (by decide)).mpr
    ⟨by decide, by decide, by decide, fun _ => by decide⟩⟩

theorem JtagDriverZynqFifo.firstMeets_iff {txBytes hsize got : BitVec 32} (size : BitVec 32)
    (hpos : txBytes ≠ 0) (hmod : hsize % 4 = 0) (hle : hsize ≤ got) :
    FirstMeets txBytes hsize size got ↔ Fits txBytes hsize size got false :=
  meets_iff got (always 0) false (fun _ => 0) size hpos ⟨0, by decide⟩ hmod hle

theorem JtagDriverTmemFifo.firstMeets_iff {txBytes hsize csr : BitVec 32} (size : BitVec 32)
    (hpos : txBytes ≠ 0) (hmod : hsize % 4 = 0) (hready : csr &&& FIFO_CSR_EMPI = 0)
    (hle : hsize ≤ count csr) :
    FirstMeets txBytes hsize size csr ↔ Fits txBytes hsize size (count csr) false :=
  @meets_iff (always csr) (always 0) false (fun _ => 0) txBytes hsize size Transfer.fresh 0 hpos
    (fun k hk => absurd hk (Nat.not_lt_zero k)) hready hmod hle

/-- An empty reply to a driver that asks for no header, a request and an excess whose lengths
overflow in their last words, and a number that is no `int`. -/
theorem fifo_boundaries_crossed :
    ¬ JtagDriverZynqFifo.FirstMeets 4 0 0 0 ∧ ¬ JtagDriverTmemFifo.FirstMeets 4 0 0 0 ∧
      ¬ JtagDriverZynqFifo.FirstMeets 0xffffffff 4 0 4 ∧
      ¬ JtagDriverTmemFifo.FirstMeets 0xffffffff 4 0 1 ∧
      ¬ JtagDriverZynqFifo.FirstMeets 4 0 0 0xffffffff ∧
      ¬ JtagDriverZynqFifo.FirstMeets 4 4 0xffffffff 0xffffffff := by
  refine ⟨?_, ?_, ?_, ?_, ?_, ?_⟩
  · rw [JtagDriverZynqFifo.firstMeets_iff _ (by decide) (by decide) (by decide)]
    exact fun h => absurd h.reply (by decide)
  · rw [JtagDriverTmemFifo.firstMeets_iff _ (by decide) (by decide) (by decide) (by decide)]
    exact fun h => absurd h.reply (by decide)
  · rw [JtagDriverZynqFifo.firstMeets_iff _ (by decide) (by decide) (by decide)]
    exact fun h => absurd h.request (by decide)
  · rw [JtagDriverTmemFifo.firstMeets_iff _ (by decide) (by decide) (by decide) (by decide)]
    exact fun h => absurd h.request (by decide)
  · rw [JtagDriverZynqFifo.firstMeets_iff _ (by decide) (by decide) (by decide)]
    exact fun h => absurd h.excess (by decide)
  · rw [JtagDriverZynqFifo.firstMeets_iff _ (by decide) (by decide) (by decide)]
    exact fun h => absurd (h.int rfl) (by decide)

end XvcSupport
