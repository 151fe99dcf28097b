import XvcSupport.LoopBack
import XvcSupport.LocalFrames
import XvcSupport.Protocol

namespace XvcSupport

open JtagDriver JtagDriverLoopBack AxisToJtag Protocol

theorem getVrs_eq (x : Header) :
    getVrs x = (AxisToJtagPkg.getVersion x).setWidth 32 <<< 30 := by
  apply BitVec.eq_of_getLsbD_eq
  intro i hi
  have hmask : versMask.getLsbD i = decide (30 ≤ i) := by
    revert i
    decide
  rw [getVrs, BitVec.getLsbD_and, hmask, BitVec.getLsbD_shiftLeft, BitVec.getLsbD_setWidth,
    AxisToJtagPkg.getVersion, BitVec.getLsbD_extractLsb']
  by_cases h30 : 30 ≤ i
  · have hlt : i - 30 < 2 := by omega
    have hlt' : i - 30 < 32 := by omega
    simp [h30, hi, hlt, hlt', not_lt.mpr h30]
  · simp [h30, not_le.mp h30]

theorem getCmd_eq (x : Header) :
    getCmd x = (AxisToJtagPkg.getCommand x).setWidth 32 <<< 28 := by
  apply BitVec.eq_of_getLsbD_eq
  intro i hi
  have hmask : cmdMask.getLsbD i = decide (28 ≤ i ∧ i < 30) := by
    revert i
    decide
  rw [getCmd, BitVec.getLsbD_and, hmask, BitVec.getLsbD_shiftLeft, BitVec.getLsbD_setWidth,
    AxisToJtagPkg.getCommand, BitVec.getLsbD_extractLsb']
  by_cases h28 : 28 ≤ i
  · have hlt' : i - 28 < 32 := by omega
    have hiff : i - 28 < 2 ↔ i < 30 := by omega
    simp [h28, hi, hlt', hiff, not_lt.mpr h28, Bool.and_comm]
  · simp [h28, not_le.mp h28]

theorem shiftLeft_inj {v v' : BitVec 2} {n : ℕ} (hn : n ≤ 30)
    (h : v.setWidth 32 <<< n = v'.setWidth 32 <<< n) : v = v' := by
  apply BitVec.eq_of_getLsbD_eq
  intro i hi
  have hbit := congrArg (fun x => BitVec.getLsbD x (n + i)) h
  have hlt : n + i < 32 := by omega
  have hlt' : i < 32 := by omega
  simpa [BitVec.getLsbD_shiftLeft, BitVec.getLsbD_setWidth, hlt, hlt'] using hbit

theorem getVrs_inj {x y : Header} :
    getVrs x = getVrs y ↔ AxisToJtagPkg.getVersion x = AxisToJtagPkg.getVersion y := by
  rw [getVrs_eq, getVrs_eq]
  exact ⟨shiftLeft_inj (by decide), fun h => by rw [h]⟩

theorem getCmd_inj {x y : Header} :
    getCmd x = getCmd y ↔ AxisToJtagPkg.getCommand x = AxisToJtagPkg.getCommand y := by
  rw [getCmd_eq, getCmd_eq]
  exact ⟨shiftLeft_inj (by decide), fun h => by rw [h]⟩

theorem getVrs_eq_pvers_iff (x : Header) :
    getVrs x = pvers ↔ AxisToJtagPkg.getVersion x = AxisToJtagPkg.proVersn :=
  getVrs_inj (y := pvers)

theorem getCmd_eq_cmdQ_iff (x : Header) :
    getCmd x = cmdQ ↔ AxisToJtagPkg.getCommand x = AxisToJtagPkg.cmdQuery :=
  getCmd_inj (y := cmdQ)

theorem getCmd_eq_cmdS_iff (x : Header) :
    getCmd x = cmdS ↔ AxisToJtagPkg.getCommand x = AxisToJtagPkg.cmdTrans :=
  getCmd_inj (y := cmdS)

section ErrorReply

variable (h code mask : Header)

theorem errorReply_and : errorReply h code &&& mask =
    (h &&& (~~~(cmdMask ||| lenMask) &&& mask)) ||| ((cmdE ||| code) &&& mask) := by
  rw [errorReply, BitVec.and_or_distrib_right, BitVec.and_assoc]

theorem getVrs_errorReply (hcode : (cmdE ||| code) &&& versMask = 0#32) :
    getVrs (errorReply h code) = getVrs h := by
  rw [getVrs, errorReply_and, hcode, BitVec.or_zero]
  rfl

theorem getErr_errorReply (hcmd : (cmdE ||| code) &&& cmdMask = cmdE) :
    getErr (errorReply h code) = ((cmdE ||| code) &&& errMask).toNat := by
  have hE : getCmd (errorReply h code) = cmdE := by
    have hnone : ~~~(cmdMask ||| lenMask) &&& cmdMask = 0#32 := by decide
    rw [getCmd, errorReply_and, hcmd, hnone, BitVec.and_zero, BitVec.zero_or]
  have hnone : ~~~(cmdMask ||| lenMask) &&& errMask = 0#32 := by decide
  rw [getErr, if_neg (by simp [hE]), errorReply_and, hnone, BitVec.and_zero, BitVec.zero_or,
    errShift, BitVec.ushiftRight_zero]

end ErrorReply

namespace UdpLoopBack

variable {L : Type} {scan : Format → L → Option (BitVec 64)} {e : Emul L} {txb : List Byte}

@[simp] theorem rxh_putHdr (h : Header) (e : Emul L) : rxh (putHdr h e) = h := by
  refine getHdr_slice (n := 4) (by decide) fun i hi => ?_
  simp [putHdr, memcpy, hi, memOf]

theorem xfer_eq (scan : Format → L → Option (BitVec 64)) (e : Emul L) (txb : List Byte) :
    xfer scan txb e =
      if getCmd (getHdr txb) = cmdQ then
        (JtagDriverLoopBack.xfer scan emulMemDepth txb { e with tsiz := -1 }).map
          fun r => (↑r.1, r.2)
      else if isRetry e txb then
        if e.tsiz < 0 then .error .noValidMessage else .ok (e.tsiz, e)
      else if getCmd (getHdr txb) = cmdS then
        (JtagDriverLoopBack.xfer scan emulMemDepth txb e).map
          fun r => (↑r.1, { r.2 with tsiz := r.1 })
      else
        (JtagDriverLoopBack.xfer scan emulMemDepth txb e).map fun r => (↑r.1, r.2) := by
  -- the program, applied to the state it starts from
  change (if getCmd (getHdr txb) = cmdQ then _ else if isRetry e txb = true then _ else
    if getCmd (getHdr txb) = cmdS then _ else _ : M L ℤ) e = _
  split_ifs
  · change (JtagDriverLoopBack.xfer scan emulMemDepth txb { e with tsiz := -1 } >>= fun r =>
      Except.ok ((↑r.1 : ℤ), r.2)) = _
    cases JtagDriverLoopBack.xfer scan emulMemDepth txb { e with tsiz := -1 }
    all_goals rfl
  · rfl
  · rfl
  · change (JtagDriverLoopBack.xfer scan emulMemDepth txb e >>= fun r =>
      Except.ok ((↑r.1 : ℤ), { r.2 with tsiz := ↑r.1 })) = _
    cases JtagDriverLoopBack.xfer scan emulMemDepth txb e
    all_goals rfl
  · change (JtagDriverLoopBack.xfer scan emulMemDepth txb e >>= fun r =>
      Except.ok ((↑r.1 : ℤ), r.2)) = _
    cases JtagDriverLoopBack.xfer scan emulMemDepth txb e
    all_goals rfl

theorem not_isRetry_of_query (hcmd : getCmd (getHdr txb) = cmdQ) : isRetry e txb = false := by
  have hne : cmdQ ≠ cmdS := by decide
  simp [isRetry, hcmd, hne]

theorem getCmd_of_isRetry (h : isRetry e txb = true) : getCmd (getHdr txb) = cmdS := by
  rw [isRetry, Bool.and_eq_true, decide_eq_true_eq] at h
  exact h.1

variable (scan) in
theorem xfer_retry (hretry : isRetry e txb = true) : xfer scan txb e =
    if e.tsiz < 0 then .error .noValidMessage else .ok (e.tsiz, e) := by
  have hne : cmdS ≠ cmdQ := by decide
  rw [xfer_eq, getCmd_of_isRetry hretry, if_neg hne, if_pos hretry]

variable (scan e) in
theorem xfer_query (h4 : 4 ≤ txb.length) (hvrs : getVrs (getHdr txb) = pvers)
    (hcmd : getCmd (getHdr txb) = cmdQ) : xfer scan txb e =
      .ok (0, putHdr (getHdr txb ||| (((BitVec.ofNat 32 emulMemDepth &&& 0xfffff) <<< 4) |||
        BitVec.ofNat 32 (emulWordSize - 1))) (rewind { e with tsiz := -1 })) := by
  have hlen : ¬ txb.length < 4 := by omega
  rw [xfer_eq, if_pos hcmd]
  simp only [JtagDriverLoopBack.xfer, hlen, hvrs, hcmd, if_true, if_false, ne_eq,
    not_true_eq_false]
  rfl

variable (scan) in
theorem xfer_turned_down {r : Header} (hretry : isRetry e txb = false)
    (hdown : ∀ e, JtagDriverLoopBack.xfer scan emulMemDepth txb e = .ok (0, putHdr r e)) :
    ∃ e', xfer scan txb e = .ok (0, e') ∧ rxh e' = r := by
  rw [xfer_eq, hdown, hdown, hretry, if_neg Bool.false_ne_true]
  split_ifs
  · exact ⟨_, rfl, rxh_putHdr r _⟩
  · exact ⟨_, rfl, rxh_putHdr r e⟩
  · exact ⟨_, rfl, rxh_putHdr r e⟩

theorem turns_down_version (h4 : 4 ≤ txb.length) (hvrs : getVrs (getHdr txb) ≠ pvers)
    (e : Emul L) : JtagDriverLoopBack.xfer scan emulMemDepth txb e =
      .ok (0, putHdr (errorReply (getHdr txb) 2) e) := by
  have hlen : ¬ txb.length < 4 := by omega
  simp only [JtagDriverLoopBack.xfer, hlen, hvrs, if_false, if_true, ne_eq, not_false_eq_true]
  rfl

theorem turns_down_command (h4 : 4 ≤ txb.length) (hvrs : getVrs (getHdr txb) = pvers)
    (hq : getCmd (getHdr txb) ≠ cmdQ) (hs : getCmd (getHdr txb) ≠ cmdS)
    (e : Emul L) : JtagDriverLoopBack.xfer scan emulMemDepth txb e =
      .ok (0, putHdr (errorReply (getHdr txb) 1) e) := by
  have hlen : ¬ txb.length < 4 := by omega
  simp only [JtagDriverLoopBack.xfer, hlen, hvrs, hq, hs, if_false, ne_eq, not_true_eq_false]
  rfl

/-- A shift that is not repeated is played back. -/
inductive Played (h : Header) : Except Exn (ℤ × Emul L) → Prop
  | returned (got : ℤ) (e' : Emul L) (header : rxh e' = h) (size : e'.tsiz = got)
    (nonneg : 0 ≤ got) : Played h (.ok (got, e'))
  | thrown (exn : Exn) (of : exn.OfPlayback) : Played h (.error exn)

theorem xfer_shift {bits : ℕ} (h4 : 4 ≤ txb.length) (hvrs : getVrs (getHdr txb) = pvers)
    (hcmd : getCmd (getHdr txb) = cmdS) (hretry : isRetry e txb = false)
    (hlen : JtagDriver.getLen (getHdr txb) = .ok bits)
    (hsize : emulWordSize + 2 * ((bits + 7) / 8) ≤ txb.length) :
    Played (getHdr txb) (xfer scan txb e) := by
  have hne : cmdS ≠ cmdQ := by decide
  have hlt : ¬ txb.length < 4 := by omega
  have hbase : JtagDriverLoopBack.xfer scan emulMemDepth txb e =
      (shift scan txb (getHdr txb) e).map fun r => (r.1, putHdr (getHdr txb) r.2) := by
    simp only [JtagDriverLoopBack.xfer, hlt, hvrs, hcmd, hne, if_true, if_false, ne_eq,
      not_true_eq_false]
    change (shift scan txb (getHdr txb) e >>= fun r =>
      Except.ok (r.1, putHdr (getHdr txb) r.2)) = _
    cases shift scan txb (getHdr txb) e
    all_goals rfl
  rw [xfer_eq, hbase, hcmd, if_neg hne, hretry, if_neg Bool.false_ne_true, if_pos rfl]
  cases hr : shift scan txb (getHdr txb) e with
  | error exn => exact .thrown exn (checked_shift hlen hsize e exn hr)
  | ok r => exact .returned _ _ (rxh_putHdr _ r.2) rfl (Int.natCast_nonneg r.1)

/-- AxisToJtag with the word size and the memory of the emulation and the period code 0. -/
def target : Generics := .ofSize emulWordSize emulMemDepth (by decide)

/-- What a request may be: shifts are as the driver sends them, whatever has the wrong version or
another command is left open. -/
structure Request (txb : List Byte) : Prop where
  header : 4 ≤ txb.length
  query : getVrs (getHdr txb) = pvers → getCmd (getHdr txb) = cmdQ →
    getHdr txb &&& 0x0fffffff = 0
  shift : ∀ bits, getVrs (getHdr txb) = pvers → getLen (getHdr txb) = .ok bits →
    getXid (getHdr txb) ≠ xidAny ∧ wordCount 32 bits ≤ emulMemDepth ∧
      4 + 8 * wordCount 32 bits ≤ txb.length

def Supported (txb : List Byte) : Prop :=
  getVrs (getHdr txb) = pvers ∧ (getCmd (getHdr txb) = cmdQ ∨ getCmd (getHdr txb) = cmdS)

section Frame

theorem frame_cons (h4 : 4 ≤ txb.length) :
    ∃ (w : BitVec target.W) (ws : List (BitVec target.W)), frame target txb = w :: ws := by
  cases hf : frame target txb with
  | nil =>
    have hlen : (frame target txb).length = (txb.length + 4 - 1) / 4 := wordsOf_length 4 txb
    rw [hf, List.length_nil] at hlen
    omega
  | cons w ws => exact ⟨w, ws, rfl⟩

variable {w : BitVec target.W} {ws : List (BitVec target.W)}

theorem getVersion_frame (hf : frame target txb = w :: ws) :
    AxisToJtagPkg.getVersion w = AxisToJtagPkg.getVersion (getHdr txb) := by
  rw [← setWidth_of_frame target hf]
  exact (extractLsb'_setWidth_low w (by decide)).symm

theorem getCommand_frame (hf : frame target txb = w :: ws) :
    AxisToJtagPkg.getCommand w = AxisToJtagPkg.getCommand (getHdr txb) := by
  rw [← setWidth_of_frame target hf]
  exact (extractLsb'_setWidth_low w (by decide)).symm

theorem getXid_frame (hf : frame target txb = w :: ws) :
    AxisToJtagPkg.getXid w = getXid (getHdr txb) := by
  rw [← setWidth_of_frame target hf, getXid_setWidth]

theorem getLen_frame (hf : frame target txb = w :: ws) {bits : ℕ}
    (hbits : getLen (getHdr txb) = .ok bits) : (AxisToJtagPkg.getLen w).toNat + 1 = bits := by
  have hlow : AxisToJtagPkg.getLen w = AxisToJtagPkg.getLen (getHdr txb) := by
    rw [← setWidth_of_frame target hf]
    exact (extractLsb'_setWidth_low w (by decide)).symm
  have hmask := toNat_and_mask (getHdr txb) (by decide : 20 ≤ 32)
  unfold getLen at hbits
  split_ifs at hbits
  rw [lenShift, BitVec.ushiftRight_zero, show lenMask = BitVec.ofNat 32 (2 ^ 20 - 1) from rfl,
    hmask] at hbits
  rw [hlow, ← Except.ok.inj hbits]
  rfl

theorem frame_query (hreq : Request txb) (hsup : getVrs (getHdr txb) = pvers)
    (hcmd : getCmd (getHdr txb) = cmdQ) (hf : frame target txb = w :: ws) :
    getHdr txb = 0 ∧ w = 0 := by
  have hmasks : versMask ||| cmdMask ||| 0x0fffffff = BitVec.allOnes 32 := by decide
  have hzero : getHdr txb = 0 := by
    have hparam := hreq.query hsup hcmd
    rw [getVrs] at hsup
    rw [getCmd] at hcmd
    calc
      getHdr txb = getHdr txb &&& (versMask ||| cmdMask ||| 0x0fffffff) := by
        rw [hmasks, BitVec.and_allOnes]
      _ = 0 := by
        rw [BitVec.and_or_distrib_left, BitVec.and_or_distrib_left, hsup, hcmd, hparam]
        decide
  refine ⟨hzero, ?_⟩
  have hw := setWidth_of_frame target hf
  rw [hzero] at hw
  exact hw

theorem idle_query (hvrs : getVrs (getHdr txb) = pvers) (hcmd : getCmd (getHdr txb) = cmdQ)
    (hf : frame target txb = w :: ws) (xid : BitVec 8) (memValid : Bool) :
    idle target xid memValid w ws.isEmpty = .query := by
  have hv := (getVrs_eq_pvers_iff _).mp hvrs
  have hc := (getCmd_eq_cmdQ_iff _).mp hcmd
  rw [idle, getVersion_frame hf, hv, getCommand_frame hf, hc, if_neg (by simp), if_pos rfl]

theorem idle_shift (hreq : Request txb) (hvrs : getVrs (getHdr txb) = pvers)
    (hcmd : getCmd (getHdr txb) = cmdS) (hf : frame target txb = w :: ws) (xid : BitVec 8)
    (memValid : Bool) : 2 ≤ ws.length ∧ idle target xid memValid w ws.isEmpty =
      if memValid = true ∧ getXid (getHdr txb) = xid then .replay else .execute := by
  have hv := (getVrs_eq_pvers_iff _).mp hvrs
  have hc := (getCmd_eq_cmdS_iff _).mp hcmd
  have hbits : getLen (getHdr txb) =
      .ok (((getHdr txb &&& lenMask) >>> lenShift).toNat + 1) := by
    rw [getLen, if_neg (by simp [hcmd])]
  obtain ⟨-, hdepth, hsize⟩ := hreq.shift _ hvrs hbits
  have hlenw := getLen_frame hf hbits
  have hcount : (frame target txb).length = (txb.length + 4 - 1) / 4 := wordsOf_length 4 txb
  rw [hf, List.length_cons] at hcount
  have hpos : 1 ≤ wordCount 32 (((getHdr txb &&& lenMask) >>> lenShift).toNat + 1) := by
    unfold wordCount
    omega
  have htwo : 2 ≤ ws.length := by omega
  have hne : ws.isEmpty = false := by
    cases ws with
    | nil => simp at htwo
    | cons x xs => rfl
  have hcheck : checkLen target w = true := by
    rw [checkLen_iff target (a := 5) rfl, hlenw]
    exact Or.inr hdepth
  refine ⟨htwo, ?_⟩
  rw [idle, getVersion_frame hf, hv, getCommand_frame hf, hc, hne, hcheck, xidIsNew,
    getXid_frame hf]
  have hmem : target.memDepth ≠ 0 := by decide
  have hcmds : AxisToJtagPkg.cmdTrans ≠ AxisToJtagPkg.cmdQuery := by decide
  cases memValid with
  | false => simp [hcmds]
  | true =>
    by_cases hxid : getXid (getHdr txb) = xid
    · simp [hcmds, hmem, hxid]
    · simp [hcmds, hmem, hxid]

end Frame

/-- What the driver reads in the header of a reply. -/
structure SameReply (h h' : Header) : Prop where
  vrs : getVrs h = getVrs h'
  cmd : getCmd h = getCmd h'
  err : getErr h = getErr h'

theorem SameReply.of_shifts {h h' : Header} (hvrs : getVrs h = pvers) (hcmd : getCmd h = cmdS)
    (hvrs' : getVrs h' = pvers) (hcmd' : getCmd h' = cmdS) : SameReply h h' := by
  have hne : cmdS ≠ cmdE := by decide
  refine ⟨hvrs.trans hvrs'.symm, hcmd.trans hcmd'.symm, ?_⟩
  rw [getErr, getErr, if_pos (by rw [hcmd]; exact hne), if_pos (by rw [hcmd']; exact hne)]

variable {tap : Tap} {fw : Fw target.W}

/-- The header of the firmware's reply. -/
def answer (tap : Tap) (fw : Fw target.W) (txb : List Byte) : Header :=
  getHdr (octetsOf target.axisWidth (serve target tap fw (frame target txb)).1)

/-- The emulation sends its last reply again, and has touched nothing, exactly when the firmware
replays, and the headers of the replies agree. The emulation may end because a request is not what
the playback file expects. -/
structure Agrees (scan : Format → L → Option (BitVec 64)) (tap : Tap) (e : Emul L)
    (fw : Fw target.W) (txb : List Byte) : Prop where
  replay : (isRetry e txb = true ∧ xfer scan txb e = .ok (e.tsiz, e)) ↔
    replays target fw (frame target txb) = true
  reply : ∀ got e', xfer scan txb e = .ok (got, e') → SameReply (rxh e') (answer tap fw txb)
  threw : ∀ exn, xfer scan txb e = .error exn → exn.OfPlayback

/-- What the emulation and the firmware know of the last shift. -/
inductive InStep (e : Emul L) (fw : Fw target.W) : Prop
  | fresh (xid : getXid (rxh e) = xidAny) (valid : fw.memValid = false)
  | stored (size : 0 ≤ e.tsiz) (valid : fw.memValid = true) (xid : getXid (rxh e) = fw.xid)
    (vrs : getVrs (rxh e) = pvers) (cmd : getCmd (rxh e) = cmdS)

variable (scan e tap fw) in
theorem query_agrees (hreq : Request txb) (hvrs : getVrs (getHdr txb) = pvers)
    (hcmd : getCmd (getHdr txb) = cmdQ) : Agrees scan tap e fw txb ∧
      ∀ got e', xfer scan txb e = .ok (got, e') →
        InStep e' (serve target tap fw (frame target txb)).2 := by
  obtain ⟨w, ws, hf⟩ := frame_cons hreq.header
  obtain ⟨hzero, hw⟩ := frame_query hreq hvrs hcmd hf
  have hidle := idle_query hvrs hcmd hf fw.xid fw.memValid
  have hx := xfer_query scan e hreq.header hvrs hcmd
  rw [hzero] at hx
  have hserve : serve target tap fw (frame target txb) =
      ([setQueryData target w], { fw with memValid := false }) := by
    rw [hf, serve, hidle]
  refine ⟨⟨?_, ?_, ?_⟩, ?_⟩
  · rw [not_isRetry_of_query hcmd, hf, replays, hidle]
    simp
  · intro got e' hok
    rw [hx] at hok
    cases hok
    rw [rxh_putHdr, answer, hserve, getHdr_octetsOf, hw]
    constructor
    all_goals decide
  · intro exn herr
    rw [hx] at herr
    cases herr
  · intro got e' hok
    rw [hx] at hok
    cases hok
    rw [hserve]
    refine InStep.fresh ?_ rfl
    rw [rxh_putHdr]
    decide

theorem InStep.isRetry_iff (h : InStep e fw) (hcmd : getCmd (getHdr txb) = cmdS)
    (hxid : getXid (getHdr txb) ≠ xidAny) :
    isRetry e txb = true ↔ fw.memValid = true ∧ getXid (getHdr txb) = fw.xid := by
  rw [isRetry, Bool.and_eq_true, decide_eq_true_eq, decide_eq_true_eq]
  cases h with
  | fresh hx hv => simp [hx, hv, hxid]
  | stored hs hv hx _ _ => simp [hx, hv, hcmd]

variable (scan tap) in
theorem InStep.agrees (h : InStep e fw) (hreq : Request txb) (hsup : Supported txb) :
    Agrees scan tap e fw txb ∧ ∀ got e', xfer scan txb e = .ok (got, e') →
      InStep e' (serve target tap fw (frame target txb)).2 := by
  obtain ⟨hvrs, hcmd | hcmd⟩ := hsup
  -- a query ends here; what follows is about shifts
  · exact query_agrees scan e tap fw hreq hvrs hcmd
  obtain ⟨w, ws, hf⟩ := frame_cons hreq.header
  obtain ⟨htwo, hidle⟩ := idle_shift hreq hvrs hcmd hf fw.xid fw.memValid
  have hbits : getLen (getHdr txb) =
      .ok (((getHdr txb &&& lenMask) >>> lenShift).toNat + 1) := by
    rw [getLen, if_neg (by simp [hcmd])]
  obtain ⟨hxid, -, hsize⟩ := hreq.shift _ hvrs hbits
  have hiff := h.isRetry_iff hcmd hxid
  have hw := setWidth_of_frame target hf
  -- both sides repeat their last answer, or both shift
  by_cases hretry : isRetry e txb = true
  · have hsame := hiff.mp hretry
    rw [if_pos hsame] at hidle
    cases h with
    | fresh hx hv => simp [hv] at hsame
    | stored hs hv hx hvrs' hcmd' =>
      have hok : xfer scan txb e = .ok (e.tsiz, e) := by
        rw [xfer_retry scan hretry, if_neg (by omega)]
      have hserve : serve target tap fw (frame target txb) = (w :: fw.mem, fw) := by
        rw [hf, serve, hidle]
      refine ⟨⟨?_, ?_, ?_⟩, ?_⟩
      · rw [hf, replays, hidle]
        simp [hretry, hok]
      · intro got e' hx'
        rw [hok] at hx'
        cases hx'
        rw [answer, hserve, getHdr_octetsOf, hw]
        exact SameReply.of_shifts hvrs' hcmd' hvrs hcmd
      · intro exn herr
        rw [hok] at herr
        cases herr
      · intro got e' hx'
        rw [hok] at hx'
        cases hx'
        rw [hserve]
        exact .stored hs hv hx hvrs' hcmd'
  · have hdiff : ¬ (fw.memValid = true ∧ getXid (getHdr txb) = fw.xid) := fun hc =>
      hretry (hiff.mpr hc)
    rw [if_neg hdiff] at hidle
    have hserve : serve target tap fw (frame target txb) =
        (w :: shiftTdo target tap fw.hist w ws,
          { xid := AxisToJtagPkg.getXid w
            memValid := true
            mem := shiftTdo target tap fw.hist w ws
            hist := fw.hist ++ edgesOf (shiftBits target w ws) }) := by
      have hne : ws.length ≠ 1 := by omega
      have hmem : decide (0 < target.memDepth) = true := by decide
      rw [hf, serve, hidle]
      simp only [hne, if_false, hmem]
    -- a shift is new to both sides, and the emulation leaves behind what the firmware stores
    have hplayed : Played (getHdr txb) (xfer scan txb e) := by
      refine xfer_shift hreq.header hvrs hcmd (by simpa using hretry) hbits ?_
      unfold wordCount at hsize
      rw [emulWordSize]
      omega
    have hnot : replays target fw (frame target txb) = false := by
      rw [hf, replays, hidle]
      rfl
    refine ⟨⟨?_, ?_, ?_⟩, ?_⟩
    · simp [hretry, hnot]
    · intro got e' hok
      rw [hok] at hplayed
      cases hplayed with
      | returned _ _ header _ _ =>
        rw [header, answer, hserve, getHdr_octetsOf, hw]
        exact SameReply.of_shifts hvrs hcmd hvrs hcmd
    · intro exn herr
      rw [herr] at hplayed
      cases hplayed with
      | thrown _ of => exact of
    · intro got e' hok
      rw [hok] at hplayed
      cases hplayed with
      | returned _ _ header size nonneg =>
        rw [hserve]
        refine .stored (size ▸ nonneg) rfl ?_ (header ▸ hvrs) (header ▸ hcmd)
        rw [header, getXid_frame hf]

/-- Nothing else is answered alike: the emulation returns the wrong version as it is, or sends its
last reply, and it takes the code of a bad version for that of a bad command. -/
theorem not_agrees (hreq : Request txb) (hsup : ¬ Supported txb) :
    ¬ Agrees scan tap e fw txb := by
  intro hagrees
  obtain ⟨w, ws, hf⟩ := frame_cons hreq.header
  by_cases hvrs : getVrs (getHdr txb) = pvers
  · have hq : getCmd (getHdr txb) ≠ cmdQ := fun hc => hsup ⟨hvrs, Or.inl hc⟩
    have hs : getCmd (getHdr txb) ≠ cmdS := fun hc => hsup ⟨hvrs, Or.inr hc⟩
    have hretry : isRetry e txb = false := by simp [isRetry, hs]
    have hidle : idle target fw.xid fw.memValid w ws.isEmpty = .badCommand := by
      rw [idle, getVersion_frame hf, (getVrs_eq_pvers_iff _).mp hvrs, getCommand_frame hf,
        if_neg (by simp), if_neg (fun hc => hq ((getCmd_eq_cmdQ_iff _).mpr hc)),
        if_neg (fun hc => hs ((getCmd_eq_cmdS_iff _).mpr hc))]
    obtain ⟨e', hok, hrxh⟩ := xfer_turned_down scan hretry
      (turns_down_command hreq.header hvrs hq hs)
    have herr := (hagrees.reply _ _ hok).err
    rw [hrxh, getErr_errorReply _ _ (by decide), answer, hf, serve, hidle, getHdr_octetsOf,
      getErr_setErr] at herr
    exact absurd herr (by decide)
  · have hidle : idle target fw.xid fw.memValid w ws.isEmpty = .badVersion := by
      rw [idle, getVersion_frame hf, if_pos (fun hc => hvrs ((getVrs_eq_pvers_iff _).mpr hc))]
    by_cases hretry : isRetry e txb = true
    · have hx := xfer_retry scan hretry
      by_cases hsize : e.tsiz < 0
      · rw [if_pos hsize] at hx
        exact hagrees.threw _ hx
      · rw [if_neg hsize] at hx
        have hrep := hagrees.replay.mp ⟨hretry, hx⟩
        rw [hf, replays, hidle] at hrep
        cases hrep
    · obtain ⟨e', hok, hrxh⟩ := xfer_turned_down scan (by simpa using hretry)
        (turns_down_version hreq.header hvrs)
      have hsame := (hagrees.reply _ _ hok).vrs
      rw [hrxh, getVrs_errorReply _ _ (by decide), answer, hf, serve, hidle, getHdr_octetsOf]
        at hsame
      apply hvrs
      rw [hsame, getVrs_eq_pvers_iff]
      have hset : AxisToJtagPkg.getVersion
          (AxisToJtagPkg.setVersion AxisToJtagPkg.proVersn w) = AxisToJtagPkg.proVersn :=
        getVersion_setVersion
      have hver := (setErr_answers AxisToJtagPkg.errBadVersion hset).1
      exact (extractLsb'_setWidth_low _ (by decide)).trans hver

/-- `P` holds for every request that is served; an exception ends the emulation. -/
def Throughout (scan : Format → L → Option (BitVec 64)) (tap : Tap)
    (P : Emul L → Fw target.W → List Byte → Prop) :
    Emul L → Fw target.W → List (List Byte) → Prop
  | _, _, [] => True
  | e, fw, txb :: rest => P e fw txb ∧ ∀ got e', xfer scan txb e = .ok (got, e') →
      Throughout scan tap P e' (serve target tap fw (frame target txb)).2 rest

theorem throughout_of_forall {P : List Byte → Prop} {txbs : List (List Byte)}
    (h : ∀ txb ∈ txbs, P txb) : Throughout scan tap (fun _ _ txb => P txb) e fw txbs := by
  induction txbs generalizing e fw with
  | nil => trivial
  | cons txb rest ih =>
    refine ⟨h txb (by simp), fun got e' _ => ih fun txb hmem => h txb (by simp [hmem])⟩

theorem InStep.throughout_iff (h : InStep e fw) {txbs : List (List Byte)}
    (hreq : ∀ txb ∈ txbs, Request txb) : Throughout scan tap (Agrees scan tap) e fw txbs ↔
      Throughout scan tap (fun _ _ txb => Supported txb) e fw txbs := by
  induction txbs generalizing e fw with
  | nil => exact Iff.rfl
  | cons txb rest ih =>
    have hone := hreq txb (by simp)
    have hrest : ∀ txb ∈ rest, Request txb := fun txb hmem => hreq txb (by simp [hmem])
    by_cases hsup : Supported txb
    · obtain ⟨hagrees, hnext⟩ := h.agrees scan tap hone hsup
      constructor
      · rintro ⟨-, hgo⟩
        exact ⟨hsup, fun got e' hok => (ih (hnext got e' hok) hrest).mp (hgo got e' hok)⟩
      · rintro ⟨-, hgo⟩
        exact ⟨hagrees, fun got e' hok => (ih (hnext got e' hok) hrest).mpr (hgo got e' hok)⟩
    · constructor
      · rintro ⟨hagrees, -⟩
        exact absurd hagrees (not_agrees hone hsup)
      · rintro ⟨hs, -⟩
        exact absurd hs hsup

theorem request_of_mkQuery (h4 : 4 ≤ txb.length) (hhdr : getHdr txb = mkQuery) :
    Request txb := by
  refine ⟨h4, fun _ _ => ?_, fun bits _ hbits => ?_⟩
  · rw [hhdr]
    decide
  · rw [hhdr] at hbits
    cases hbits

/-- After the driver's query the emulation and the firmware agree on every request exactly as long
as there are only queries and shifts of the right version. -/
theorem emulation_agrees_iff (scan : Format → L → Option (BitVec 64)) (tap : Tap) (e : Emul L)
    (fw : Fw target.W) {query : List Byte} {txbs : List (List Byte)} (h4 : 4 ≤ query.length)
    (hquery : getHdr query = mkQuery) (hreq : ∀ txb ∈ txbs, Request txb) :
    Throughout scan tap (Agrees scan tap) e fw (query :: txbs) ↔
      Throughout scan tap (fun _ _ txb => Supported txb) e fw (query :: txbs) := by
  have hvrs : getVrs (getHdr query) = pvers := by
    rw [hquery]
    decide
  have hcmd : getCmd (getHdr query) = cmdQ := by
    rw [hquery]
    decide
  have hfirst := query_agrees scan e tap fw (request_of_mkQuery h4 hquery) hvrs hcmd
  constructor
  · rintro ⟨-, hgo⟩
    exact ⟨⟨hvrs, Or.inl hcmd⟩, fun got e' hok =>
      ((hfirst.2 got e' hok).throughout_iff hreq).mp (hgo got e' hok)⟩
  · rintro ⟨-, hgo⟩
    exact ⟨hfirst.1, fun got e' hok =>
      ((hfirst.2 got e' hok).throughout_iff hreq).mpr (hgo got e' hok)⟩

section Runs

/-- No file is played back, and the buffer is full of ones at first. -/
def withoutFile : Emul Unit := Emul.new none false (fun _ => 0xff) fun _ => 0

def eightBits : List Byte := [0x07, 0x00, 0x10, 0x10, 1, 0, 0, 0, 2, 0, 0, 0]

theorem request_eightBits : Request eightBits := by
  refine ⟨by decide, fun _ hcmd => absurd hcmd (by decide), fun bits _ hbits => ?_⟩
  obtain rfl : 8 = bits := Except.ok.inj hbits
  decide

/-- A shift, the same shift once more, and a query. -/
theorem emulation_agrees_repeated :
    Throughout (fun _ _ => none) (fun _ _ tdi => tdi) (Agrees (fun _ _ => none) fun _ _ tdi => tdi)
      withoutFile (Fw.init target.W) [[0, 0, 0, 0], eightBits, eightBits, [0, 0, 0, 0]] := by
  have hquery : Request [0, 0, 0, 0] := request_of_mkQuery (by decide) (by decide)
  have hreq : ∀ txb ∈ [eightBits, eightBits, [0, 0, 0, 0]], Request txb := by
    simp only [List.forall_mem_cons]
    exact ⟨request_eightBits, request_eightBits, hquery, by simp⟩
  refine (emulation_agrees_iff _ _ _ _ (by decide) (by decide) hreq).mpr ?_
  apply throughout_of_forall
  unfold Supported
  decide

/-- A query and a message with the command code of an error: the emulation answers with the error
code 1, the firmware with 2. -/
theorem emulation_disagrees : (∀ txb ∈ [[0, 0, 0, 0x20]], Request txb) ∧
    ¬ Throughout (fun _ _ => none) (fun _ _ tdi => tdi)
      (Agrees (fun _ _ => none) fun _ _ tdi => tdi) withoutFile (Fw.init target.W)
      [[0, 0, 0, 0], [0, 0, 0, 0x20]] := by
  have hreq : Request [0, 0, 0, 0x20] := by
    refine ⟨by decide, fun _ hcmd => absurd hcmd (by decide), fun bits _ hbits => ?_⟩
    cases hbits
  refine ⟨by simpa using hreq, ?_⟩
  rintro ⟨-, hgo⟩
  exact not_agrees hreq (by unfold Supported; decide)
    (hgo _ _ (xfer_query _ _ (by decide) (by decide) (by decide))).1

end Runs

end UdpLoopBack

end XvcSupport
