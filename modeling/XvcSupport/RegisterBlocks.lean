import XvcSupport.WordShifts

namespace XvcSupport

open JtagDriver RegisterDriver BitList

variable {τ : Type}

def packed (tdos : List Bool) : BitVec 32 := BitVec.ofNat 32 (value tdos)

theorem getLsbD_packed (tdos : List Bool) {i : ℕ} (hi : i < 32) :
    (packed tdos).getLsbD i = tdos.getD i false := by
  rw [packed, BitVec.getLsbD_ofNat, testBit_value]
  simp [hi]

namespace JtagDriverZynqAxiDbgBridgeIP

/-- The registers, the number of polls that still find the block busy, the number of words shifted
so far, and the target. -/
structure DebugBridge (τ : Type) where
  length : BitVec 32
  tmsvec : BitVec 32
  tdivec : BitVec 32
  tdovec : BitVec 32
  csr : BitVec 32
  busy : ℕ
  words : ℕ
  tgt : τ

/-- Word `n` takes `delay n` polls; TDO reads as `junk` until then, and what is above it is
`pad n`. -/
def debugBridge (tgt : Target τ) (delay : ℕ → ℕ) (junk pad : ℕ → BitVec 32) :
    Registers (DebugBridge τ) where
  rd idx s :=
    if idx = CSR_IDX then
      if s.busy = 0 then (s.csr &&& ~~~CSR_RUN, s)
      else (s.csr ||| CSR_RUN, { s with busy := s.busy - 1 })
    else if idx = TDOVEC_IDX then (if s.busy = 0 then s.tdovec else junk s.words, s)
    else (0, s)
  wr idx w s :=
    if idx = LENGTH_IDX then { s with length := w }
    else if idx = TMSVEC_IDX then { s with tmsvec := w }
    else if idx = TDIVEC_IDX then { s with tdivec := w }
    else if idx = CSR_IDX then
      if w &&& CSR_RUN ≠ 0 ∧ s.busy = 0 then
        let (tdos, v) := tgt.shift (wordBits s.tmsvec s.tdivec s.length.toNat) s.tgt
        { s with
          tdovec := packed tdos ||| (pad s.words <<< s.length.toNat)
          csr := w
          busy := delay s.words
          words := s.words + 1
          tgt := v }
      else { s with csr := w }
    else s

/-- An idle block, for which `nbits` bits are left; `fuel` is enough for all polls. -/
structure Ready (delay : ℕ → ℕ) (fuel nbits : ℕ) (s : DebugBridge τ) : Prop where
  idle : s.busy = 0
  length : 32 ≤ nbits → s.length = 32
  polls : ∀ k, 32 * k < nbits → delay (s.words + k) < fuel

section

variable {tgt : Target τ} {delay : ℕ → ℕ} {junk pad : ℕ → BitVec 32} {fuel : ℕ}

theorem poll_eq {ε : Type} {t : Transfer (DebugBridge τ)} (hfuel : t.dev.busy < fuel) :
    ∃ w, (poll (debugBridge tgt delay junk pad) CSR_IDX (fun w => w &&& CSR_RUN = 0) fuel t :
      Run ε (BitVec 32 × Transfer (DebugBridge τ))) =
        Run.returned (w, { t with dev := { t.dev with busy := 0 } }) := by
  have hflag : CSR_RUN.getLsbD 0 = true := rfl
  apply poll_flag DebugBridge.busy (fun s => { s with busy := 0 }) hflag DebugBridge.csr _ _ hfuel
  · intro s hs
    have hrd : (debugBridge tgt delay junk pad).rd CSR_IDX s =
        (s.csr ||| CSR_RUN, { s with busy := s.busy - 1 }) := if_neg hs
    rw [hrd]
    exact ⟨rfl, Nat.sub_lt (Nat.pos_of_ne_zero hs) Nat.one_pos, rfl⟩
  · intro s hs
    have hrd : (debugBridge tgt delay junk pad).rd CSR_IDX s = (s.csr &&& ~~~CSR_RUN, s) :=
      if_pos hs
    rw [hrd]
    exact ⟨rfl, by rw [← hs]⟩

def DebugBridge.shifted (tgt : Target τ) (pad : ℕ → BitVec 32) (s : DebugBridge τ)
    (csr : BitVec 32) : DebugBridge τ :=
  let (tdos, v) := tgt.shift (wordBits s.tmsvec s.tdivec s.length.toNat) s.tgt
  { s with
    tdovec := packed tdos ||| (pad s.words <<< s.length.toNat)
    csr := csr
    words := s.words + 1
    tgt := v }

theorem run_eq {ε : Type} {t : Transfer (DebugBridge τ)} (hidle : t.dev.busy = 0)
    (hfuel : delay t.dev.words < fuel) :
    ∃ csr, (do
      let (w, t) := i32 (debugBridge tgt delay junk pad) CSR_IDX t
      let t := o32 (debugBridge tgt delay junk pad) CSR_IDX (w ||| CSR_RUN) t
      let (_, t) ← poll (debugBridge tgt delay junk pad) CSR_IDX (fun w => w &&& CSR_RUN = 0)
        fuel t
      return i32 (debugBridge tgt delay junk pad) TDOVEC_IDX t :
        Run ε (BitVec 32 × Transfer (DebugBridge τ))) =
      Run.returned ((t.dev.shifted tgt pad csr).tdovec,
        { t with dev := t.dev.shifted tgt pad csr }) := by
  have hread : (debugBridge tgt delay junk pad).rd CSR_IDX t.dev =
      (t.dev.csr &&& ~~~CSR_RUN, t.dev) := if_pos hidle
  let csr := (t.dev.csr &&& ~~~CSR_RUN) ||| CSR_RUN
  have hrun : csr &&& CSR_RUN ≠ 0 ∧ t.dev.busy = 0 := by
    refine ⟨fun h => ?_, hidle⟩
    have hbit := congrArg (BitVec.getLsbD · 0) h
    simp [csr, CSR_RUN] at hbit
  have hwrite : (debugBridge tgt delay junk pad).wr CSR_IDX csr t.dev =
      { t.dev.shifted tgt pad csr with busy := delay t.dev.words } := if_pos hrun
  refine ⟨csr, ?_⟩
  simp only [i32, hread, o32]
  rw [hwrite]
  obtain ⟨w, hpoll⟩ := @poll_eq τ tgt delay junk pad fuel ε
    { t with dev := { t.dev.shifted tgt pad csr with busy := delay t.dev.words } } hfuel
  have hsettled : { t.dev.shifted tgt pad csr with busy := 0 } = t.dev.shifted tgt pad csr := by
    rw [← hidle]
    rfl
  have htdo : (debugBridge tgt delay junk pad).rd TDOVEC_IDX (t.dev.shifted tgt pad csr) =
      ((t.dev.shifted tgt pad csr).tdovec, t.dev.shifted tgt pad csr) :=
    Prod.ext (if_pos hidle) rfl
  rw [hpoll, returned_bind, hsettled, htdo]
  rfl

theorem shifts_debugBridge :
    Shifts tgt DebugBridge.tgt (Ready delay fuel) (∀ k, pad k = 0)
      (shift (debugBridge tgt delay junk pad) fuel) := by
  intro tms tdi nbits l t hpos hl hready
  -- the block when its registers are written
  let s : DebugBridge τ :=
    { t.dev with
      tmsvec := tms
      tdivec := tdi
      length := if nbits < 8 * 4 then BitVec.ofNat 32 l else t.dev.length }
  -- the length register is written for the last word only, and holds 32 before
  have hlength : s.length.toNat = l := by
    by_cases hlt : nbits < 8 * 4
    · have hs : s.length = BitVec.ofNat 32 l := if_pos hlt
      rw [hs, BitVec.toNat_ofNat, Nat.mod_eq_of_lt (by omega)]
    · have hs : s.length = t.dev.length := if_neg hlt
      rw [hs, hready.length (by omega)]
      change 32 = l
      omega
  obtain ⟨csr, hrun⟩ := @run_eq τ tgt delay junk pad fuel Fault { t with dev := s } hready.idle
    (hready.polls 0 (by omega))
  have hview : (s.shifted tgt pad csr).tgt = (tgt.shift (wordBits tms tdi l) t.dev.tgt).2 := by
    rw [← hlength]
    rfl
  have htdo : (s.shifted tgt pad csr).tdovec =
      packed (tgt.shift (wordBits tms tdi l) t.dev.tgt).1 ||| (pad t.dev.words <<< l) := by
    rw [← hlength]
    rfl
  have hwritten : (if nbits < 8 * 4 then
        o32 (debugBridge tgt delay junk pad) LENGTH_IDX (BitVec.ofNat 32 l)
          (o32 (debugBridge tgt delay junk pad) TDIVEC_IDX tdi
            (o32 (debugBridge tgt delay junk pad) TMSVEC_IDX tms t))
      else o32 (debugBridge tgt delay junk pad) TDIVEC_IDX tdi
          (o32 (debugBridge tgt delay junk pad) TMSVEC_IDX tms t)) = { t with dev := s } := by
    by_cases hlt : nbits < 8 * 4
    · simp only [s, if_pos hlt]
      rfl
    · simp only [s, if_neg hlt]
      rfl
  refine ⟨(s.shifted tgt pad csr).tdovec, s.shifted tgt pad csr, ?_, ?_, hview, ?_⟩
  · rw [shift]
    simp only [hwritten]
    exact hrun
  · refine ⟨hready.idle, ?_, ?_⟩
    · intro hle
      exact (if_neg (by omega : ¬ nbits < 8 * 4)).trans (hready.length (by omega))
    · intro k hk
      have hpolls := hready.polls (k + 1) (by omega)
      rwa [show t.dev.words + (k + 1) = t.dev.words + 1 + k by omega] at hpolls
  · rw [htdo]
    constructor
    · intro i hi
      rw [BitVec.getLsbD_or, getLsbD_packed _ (by omega), BitVec.getLsbD_shiftLeft]
      simp [hi]
    -- above the last bit stands what the block leaves there
    · intro hclean i hi
      have hpad : pad t.dev.words = 0 := hclean t.dev.words
      by_cases h32 : i < 32
      · rw [BitVec.getLsbD_or, getLsbD_packed _ h32,
          List.getD_eq_default _ _ (by simp [wordBits, hi]), hpad]
        simp
      · exact BitVec.getLsbD_of_ge _ _ (by omega)

end

end JtagDriverZynqAxiDbgBridgeIP

namespace JtagDriverTmemFifo

/-- The registers, as for the bridge. -/
structure Serializer (τ : Type) where
  tms : BitVec 32
  tdi : BitVec 32
  tdo : BitVec 32
  csr : BitVec 32
  busy : ℕ
  words : ℕ
  tgt : τ

/-- The length is in the low bits of CSR; TDO is in the high bits of its register, with `junk`
below. -/
def serializer (tgt : Target τ) (delay : ℕ → ℕ) (junk : ℕ → BitVec 32) :
    Registers (Serializer τ) where
  rd idx s :=
    if idx = SDES_CSR_IDX then
      if s.busy = 0 then (s.csr &&& ~~~SDES_CSR_BSY, s)
      else (s.csr ||| SDES_CSR_BSY, { s with busy := s.busy - 1 })
    else if idx = SDES_TDO_IDX then (if s.busy = 0 then s.tdo else junk s.words, s)
    else (0, s)
  wr idx w s :=
    if idx = SDES_TMS_IDX then { s with tms := w }
    else if idx = SDES_TDI_IDX then { s with tdi := w }
    else if idx = SDES_CSR_IDX then
      if w &&& SDES_CSR_RUN ≠ 0 ∧ s.busy = 0 then
        let n := (w &&& 0x1f).toNat + 1
        let (tdos, v) := tgt.shift (wordBits s.tms s.tdi n) s.tgt
        { s with
          tdo := (packed tdos <<< (32 - n)) ||| (junk s.words >>> n)
          csr := w
          busy := delay s.words
          words := s.words + 1
          tgt := v }
      else { s with csr := w }
    else s

structure Idle (delay : ℕ → ℕ) (fuel nbits : ℕ) (s : Serializer τ) : Prop where
  idle : s.busy = 0
  polls : ∀ k, 32 * k < nbits → delay (s.words + k) < fuel

section

variable {tgt : Target τ} {delay : ℕ → ℕ} {junk : ℕ → BitVec 32} {fuel : ℕ}

theorem poll_eq {ε : Type} {t : Transfer (Serializer τ)} (hfuel : t.dev.busy < fuel) :
    ∃ w, (poll (serializer tgt delay junk) SDES_CSR_IDX (fun w => w &&& SDES_CSR_BSY = 0) fuel t :
      Run ε (BitVec 32 × Transfer (Serializer τ))) =
        Run.returned (w, { t with dev := { t.dev with busy := 0 } }) := by
  have hflag : SDES_CSR_BSY.getLsbD 9 = true := rfl
  apply poll_flag Serializer.busy (fun s => { s with busy := 0 }) hflag Serializer.csr _ _ hfuel
  · intro s hs
    have hrd : (serializer tgt delay junk).rd SDES_CSR_IDX s =
        (s.csr ||| SDES_CSR_BSY, { s with busy := s.busy - 1 }) := if_neg hs
    rw [hrd]
    exact ⟨rfl, Nat.sub_lt (Nat.pos_of_ne_zero hs) Nat.one_pos, rfl⟩
  · intro s hs
    have hrd : (serializer tgt delay junk).rd SDES_CSR_IDX s = (s.csr &&& ~~~SDES_CSR_BSY, s) :=
      if_pos hs
    rw [hrd]
    exact ⟨rfl, by rw [← hs]⟩

/-- The block when it has shifted a word of `n` bits. -/
def Serializer.shifted (tgt : Target τ) (junk : ℕ → BitVec 32) (s : Serializer τ)
    (csr : BitVec 32) (n : ℕ) : Serializer τ :=
  let (tdos, v) := tgt.shift (wordBits s.tms s.tdi n) s.tgt
  { s with
    tdo := (packed tdos <<< (32 - n)) ||| (junk s.words >>> n)
    csr := csr
    words := s.words + 1
    tgt := v }

theorem length_field (csr : BitVec 32) {n : ℕ} (h1 : 1 ≤ n) (h32 : n ≤ 32) :
    (((csr &&& ~~~SDES_CSR_LRMSK ||| BitVec.ofNat 32 (n - 1) <<< SDES_CSR_LENS ||| SDES_CSR_RUN) &&&
      0x1f).toNat + 1) = n := by
  have hfield : (csr &&& ~~~SDES_CSR_LRMSK ||| BitVec.ofNat 32 (n - 1) <<< SDES_CSR_LENS |||
      SDES_CSR_RUN) &&& 0x1f = BitVec.ofNat 32 (n - 1) := by
    apply BitVec.eq_of_getLsbD_eq
    intro i hi
    have hlow : (0x1f#32).getLsbD i = decide (i < 5) := by
      revert i
      decide
    simp only [BitVec.ofNat_eq_ofNat, BitVec.getLsbD_and, BitVec.getLsbD_or, hlow, SDES_CSR_LENS,
      BitVec.shiftLeft_zero]
    by_cases h5 : i < 5
    · have hmask : (~~~SDES_CSR_LRMSK).getLsbD i = false ∧ SDES_CSR_RUN.getLsbD i = false := by
        clear hlow
        revert i
        decide
      simp [h5, hmask]
    · have hzero : (n - 1).testBit i = false := by
        apply Nat.testBit_eq_false_of_lt
        exact lt_of_lt_of_le (by omega : n - 1 < 2 ^ 5)
          (Nat.pow_le_pow_right (by decide) (by omega))
      rw [BitVec.getLsbD_ofNat, hzero]
      simp [h5]
  rw [hfield, BitVec.toNat_ofNat, Nat.mod_eq_of_lt (by omega)]
  omega

theorem shifts_serializer (logBscn : Bool) (clean : Prop) :
    Shifts tgt Serializer.tgt (Idle delay fuel) clean
      (shift (serializer tgt delay junk) false logBscn fuel) := by
  intro tms tdi nbits l t hpos hl hready
  let csr := (t.dev.csr &&& ~~~SDES_CSR_BSY) &&& ~~~SDES_CSR_LRMSK |||
    BitVec.ofNat 32 (l - 1) <<< SDES_CSR_LENS ||| SDES_CSR_RUN
  let s : Serializer τ := { t.dev with tms := tms, tdi := tdi }
  have hread : (serializer tgt delay junk).rd SDES_CSR_IDX t.dev =
      (t.dev.csr &&& ~~~SDES_CSR_BSY, t.dev) := if_pos hready.idle
  have hlength : (csr &&& 0x1f).toNat + 1 = l := length_field _ (by omega) (by omega)
  -- RUN is set in an idle block, so the write starts a shift of `l` bits
  have hrun : csr &&& SDES_CSR_RUN ≠ 0 ∧ s.busy = 0 := by
    refine ⟨fun h => ?_, hready.idle⟩
    have hbit := congrArg (BitVec.getLsbD · 8) h
    simp [csr, SDES_CSR_RUN] at hbit
  have hwrite : (serializer tgt delay junk).wr SDES_CSR_IDX csr s =
      { s.shifted tgt junk csr l with busy := delay t.dev.words } := by
    rw [← hlength]
    exact if_pos hrun
  obtain ⟨w, hpoll⟩ := @poll_eq τ tgt delay junk fuel Fault
    { t with dev := { s.shifted tgt junk csr l with busy := delay t.dev.words } }
    (hready.polls 0 (by omega))
  have hsettled : { s.shifted tgt junk csr l with busy := 0 } = s.shifted tgt junk csr l := by
    rw [← hready.idle]
    rfl
  have htdo : (serializer tgt delay junk).rd SDES_TDO_IDX (s.shifted tgt junk csr l) =
      ((s.shifted tgt junk csr l).tdo, s.shifted tgt junk csr l) :=
    Prod.ext (if_pos hready.idle) rfl
  refine ⟨(s.shifted tgt junk csr l).tdo >>> (32 - l), s.shifted tgt junk csr l, ?_, ?_, rfl, ?_⟩
  · have hseq : shift (serializer tgt delay junk) false logBscn fuel tms tdi nbits l t =
        (do
          let (_, t) ← poll (serializer tgt delay junk) SDES_CSR_IDX
            (fun w => w &&& SDES_CSR_BSY = 0) fuel
            { t with dev := (serializer tgt delay junk).wr SDES_CSR_IDX csr s }
          let (tdo, t) := i32 (serializer tgt delay junk) SDES_TDO_IDX t
          return (tdo >>> (32 - l), t)) := by
      simp only [shift, xfer32sdes, i32, hread]
      rfl
    rw [hseq, hwrite, hpoll, returned_bind, hsettled]
    simp only [i32, htdo, pure_eq_returned]
  · refine ⟨hready.idle, ?_⟩
    intro k hk
    have hpolls := hready.polls (k + 1) (by omega)
    rwa [show t.dev.words + (k + 1) = t.dev.words + 1 + k by omega] at hpolls
  -- the bits arrive at the upper end of the register; shifting them down drops the rest
  · have hbits : ∀ i < l, ((s.shifted tgt junk csr l).tdo >>> (32 - l)).getLsbD i =
        (tgt.shift (wordBits tms tdi l) t.dev.tgt).1.getD i false := by
      intro i hi
      have hshift : (s.shifted tgt junk csr l).tdo =
          (packed (tgt.shift (wordBits tms tdi l) t.dev.tgt).1 <<< (32 - l)) |||
            (junk t.dev.words >>> l) := rfl
      have hjunk : (junk t.dev.words).getLsbD (l + (32 - l + i)) = false :=
        BitVec.getLsbD_of_ge _ _ (by omega)
      rw [hshift, BitVec.getLsbD_ushiftRight, BitVec.getLsbD_or, BitVec.getLsbD_shiftLeft,
        BitVec.getLsbD_ushiftRight, hjunk, Nat.add_sub_cancel_left, getLsbD_packed _ (by omega)]
      simp
      omega
    refine ⟨hbits, fun _ i hi => ?_⟩
    rw [BitVec.getLsbD_ushiftRight]
    exact BitVec.getLsbD_of_ge _ _ (by omega)

end

end JtagDriverTmemFifo

theorem octet_eq {m m' : Mem} {j : ℕ}
    (h : ∀ i, 8 * j ≤ i → i < 8 * j + 8 → memBit m i = memBit m' i) : m j = m' j := by
  apply BitVec.eq_of_getLsbD_eq
  intro i hi
  have hbit := h (8 * j + i) (by omega) (by omega)
  have hdiv : (8 * j + i) / 8 = j := by omega
  have hmod : (8 * j + i) % 8 = i := by omega
  rwa [memBit, memBit, hdiv, hmod] at hbit

/-- The polls that `n` words take after the first `w` ones. -/
def polls (delay : ℕ → ℕ) (w n : ℕ) : ℕ := (Finset.range n).sum fun k => delay (w + k)

theorem delay_lt {delay : ℕ → ℕ} {w n fuel k : ℕ} (hfuel : polls delay w n < fuel) (hk : k < n) :
    delay (w + k) < fuel := by
  have hle : delay (w + k) ≤ polls delay w n :=
    Finset.single_le_sum (fun k _ => Nat.zero_le (delay (w + k))) (Finset.mem_range.mpr hk)
  exact Nat.lt_of_le_of_lt hle hfuel

section

variable (d : Drv) (hws : d.wordSize = 4) {bits : ℕ} (h1 : 1 ≤ bits) (h20 : bits ≤ 2 ^ 20)
  (tms tdi : Mem) (tgt : Target τ) (code : ℕ → Header) (delay : ℕ → ℕ) (junk : ℕ → BitVec 32)
  {fuel : ℕ}

include hws h1 h20

theorem JtagDriverZynqAxiDbgBridgeIP.xfer_eq (pad : ℕ → BitVec 32) (t : Transfer (DebugBridge τ))
    (hidle : t.dev.busy = 0) (hfuel : bits + polls delay t.dev.words bits < fuel) :
    ∃ t', xfer (debugBridge tgt delay junk pad) 4 code (d.shiftMsg bits tms tdi)
        (d.shiftMsg bits tms tdi).length 4 (bytesCeil bits) fuel t =
          Run.returned (bytesCeil bits, t') ∧
      Executed tgt DebugBridge.tgt (∀ k, pad k = 0) tms tdi
        { t with hdbuf := setHdr t.hdbuf 4 (getHdr (d.shiftMsg bits tms tdi)) } t.dev.tgt bits
        t' := by
  rw [getHdr_shiftMsg d tms tdi (by omega) (by omega) (by omega)]
  have hstart : ∀ t, (o32 (debugBridge tgt delay junk pad) LENGTH_IDX (BitVec.ofNat 32 (8 * 4))
      t).hdbuf = t.hdbuf ∧ (o32 (debugBridge tgt delay junk pad) LENGTH_IDX
      (BitVec.ofNat 32 (8 * 4)) t).rxb = t.rxb := fun t => ⟨rfl, rfl⟩
  unfold xfer
  apply xfer_shiftMsg hws h1 h20 shifts_debugBridge hstart code (by omega)
  · intro hdbuf
    refine ⟨hidle, fun _ => rfl, fun k hk => ?_⟩
    exact delay_lt (by omega : polls delay t.dev.words bits < fuel) (by omega)
  · intro hdbuf
    rfl

theorem JtagDriverTmemFifo.xferSdes_eq (logBscn : Bool) (t : Transfer (Serializer τ))
    (hidle : t.dev.busy = 0) (hfuel : bits + polls delay t.dev.words bits < fuel) :
    ∃ t', xferSdes (serializer tgt delay junk) false logBscn 4 code (d.shiftMsg bits tms tdi)
        (d.shiftMsg bits tms tdi).length 4 (bytesCeil bits) fuel t =
          Run.returned (bytesCeil bits, t') ∧
      Executed tgt Serializer.tgt True tms tdi
        { t with hdbuf := setHdr t.hdbuf 4 (getHdr (d.shiftMsg bits tms tdi)) } t.dev.tgt bits
        t' := by
  rw [getHdr_shiftMsg d tms tdi (by omega) (by omega) (by omega)]
  have hstart : ∀ t : Transfer (Serializer τ), (id t).hdbuf = t.hdbuf ∧ (id t).rxb = t.rxb :=
    fun t => ⟨rfl, rfl⟩
  unfold xferSdes
  apply xfer_shiftMsg hws h1 h20 (shifts_serializer logBscn True) hstart code (by omega)
  · intro hdbuf
    refine ⟨hidle, fun k hk => ?_⟩
    exact delay_lt (by omega : polls delay t.dev.words bits < fuel) (by omega)
  · intro hdbuf
    rfl

/-- A message of `sendVectors` is executed to the last bit by both drivers: its bits go through the
target in order, the header is echoed, TDO is stored and counted, and nothing behind the message is
read. The replies agree; their octets do so, too, if the bridge fills up with zeros. -/
theorem register_drivers_agree (delay' : ℕ → ℕ) (junk' pad : ℕ → BitVec 32) (logBscn : Bool)
    (t : Transfer (JtagDriverZynqAxiDbgBridgeIP.DebugBridge τ))
    (u : Transfer (JtagDriverTmemFifo.Serializer τ)) (hidle : t.dev.busy = 0)
    (hidle' : u.dev.busy = 0) (htgt : t.dev.tgt = u.dev.tgt) :
    ∃ fuel₀, ∀ fuel ≥ fuel₀, ∃ t' u',
      JtagDriverZynqAxiDbgBridgeIP.xfer
          (JtagDriverZynqAxiDbgBridgeIP.debugBridge tgt delay junk pad) 4 code
          (d.shiftMsg bits tms tdi) (d.shiftMsg bits tms tdi).length 4 (bytesCeil bits) fuel t =
        Run.returned (bytesCeil bits, t') ∧
      Executed tgt JtagDriverZynqAxiDbgBridgeIP.DebugBridge.tgt (∀ k, pad k = 0) tms tdi
        { t with hdbuf := setHdr t.hdbuf 4 (getHdr (d.shiftMsg bits tms tdi)) } t.dev.tgt bits t' ∧
      JtagDriverTmemFifo.xferSdes (JtagDriverTmemFifo.serializer tgt delay' junk') false logBscn 4
          code (d.shiftMsg bits tms tdi) (d.shiftMsg bits tms tdi).length 4 (bytesCeil bits) fuel
          u =
        Run.returned (bytesCeil bits, u') ∧
      Executed tgt JtagDriverTmemFifo.Serializer.tgt True tms tdi
        { u with hdbuf := setHdr u.hdbuf 4 (getHdr (d.shiftMsg bits tms tdi)) } u.dev.tgt bits u' ∧
      t'.dev.tgt = u'.dev.tgt ∧ (∀ i < bits, memBit t'.rxb i = memBit u'.rxb i) ∧
      ((∀ k, pad k = 0) → ∀ j < bytesCeil bits, t'.rxb j = u'.rxb j) := by
  refine ⟨bits + polls delay t.dev.words bits + polls delay' u.dev.words bits + 1,
    fun fuel hfuel => ?_⟩
  obtain ⟨t', hrun, hdone⟩ := JtagDriverZynqAxiDbgBridgeIP.xfer_eq d hws h1 h20 tms tdi tgt code
    delay junk pad t hidle (show bits + polls delay t.dev.words bits < fuel by omega)
  obtain ⟨u', hrun', hdone'⟩ := JtagDriverTmemFifo.xferSdes_eq d hws h1 h20 tms tdi tgt code
    delay' junk' logBscn u hidle' (show bits + polls delay' u.dev.words bits < fuel by omega)
  have hsame : ∀ i < bits, memBit t'.rxb i = memBit u'.rxb i := by
    intro i hi
    rw [hdone.tdo i hi, hdone'.tdo i hi, htgt]
  refine ⟨t', u', hrun, hdone, hrun', hdone', ?_, hsame, ?_⟩
  · rw [hdone.target, hdone'.target, htgt]
  · intro hpad j hj
    apply octet_eq
    intro i hle hlt
    by_cases hi : i < bits
    · exact hsame i hi
    · rw [hdone.pad hpad i (by omega) (by omega), hdone'.pad trivial i (by omega) (by omega)]

end

/-- A target that returns TDI, and two idle blocks over it. -/
theorem register_drivers_agree_loopback :
    ∃ fuel₀, ∀ fuel ≥ fuel₀, ∃ t' u',
      JtagDriverZynqAxiDbgBridgeIP.xfer (JtagDriverZynqAxiDbgBridgeIP.debugBridge
          (fun (_ : Unit) _ tdi => (tdi, ())) (fun _ => 3) (fun _ => 0) fun _ => 0) 4 (fun _ => 0)
          ((Drv.new (fun _ => 0) 0).shiftMsg 40 (fun _ => 1) fun _ => 0xa5)
          ((Drv.new (fun _ => 0) 0).shiftMsg 40 (fun _ => 1) fun _ => 0xa5).length 4 5 fuel
          ⟨fun _ => 0, fun _ => 0, 0, ⟨0, 0, 0, 0, 0, 0, 0, ()⟩⟩ = Run.returned (5, t') ∧
      JtagDriverTmemFifo.xferSdes (JtagDriverTmemFifo.serializer
          (fun (_ : Unit) _ tdi => (tdi, ())) (fun _ => 1) fun _ => 0xffff) false false 4
          (fun _ => 0) ((Drv.new (fun _ => 0) 0).shiftMsg 40 (fun _ => 1) fun _ => 0xa5)
          ((Drv.new (fun _ => 0) 0).shiftMsg 40 (fun _ => 1) fun _ => 0xa5).length 4 5 fuel
          ⟨fun _ => 0, fun _ => 0, 0, ⟨0, 0, 0, 0, 0, 0, ()⟩⟩ = Run.returned (5, u') ∧
      ∀ j < 5, t'.rxb j = u'.rxb j := by
  obtain ⟨fuel₀, h⟩ := register_drivers_agree (Drv.new (fun _ => 0) 0) rfl
    (show 1 ≤ 40 by decide) (by decide) (fun _ => 1) (fun _ => 0xa5)
    (fun (_ : Unit) _ tdi => (tdi, ())) (fun _ => 0) (fun _ => 3) (fun _ => 0) (fun _ => 1)
    (fun _ => 0xffff) (fun _ => 0) false ⟨fun _ => 0, fun _ => 0, 0, ⟨0, 0, 0, 0, 0, 0, 0, ()⟩⟩
    ⟨fun _ => 0, fun _ => 0, 0, ⟨0, 0, 0, 0, 0, 0, ()⟩⟩ rfl rfl rfl
  refine ⟨fuel₀, fun fuel hfuel => ?_⟩
  obtain ⟨t', u', hrun, -, hrun', -, -, -, hsame⟩ := h fuel hfuel
  exact ⟨t', u', hrun, hrun', hsame fun _ => rfl⟩

end XvcSupport
