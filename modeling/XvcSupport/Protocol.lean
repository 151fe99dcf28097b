import XvcSupport.Reformat
import XvcSupport.Runs

/-!
# Driver and firmware over a lossy network

One driver process and one AxisToJtag, connected by a channel in each direction that
loses and delays messages but keeps their order.  The calls of `query()` and
`sendVectors()` are broken up at their sends, receptions and timeouts; any of these, any
loss and any step of the firmware may come next.
-/

namespace XvcSupport.Protocol

open JtagDriver AxisToJtag

section Serve

variable (g : Generics)

/-- The frame of words that the octets of a request make. -/
def frame (octets : List Byte) : List (BitVec g.W) := wordsOf g.axisWidth octets

theorem getHdr_octetsOf (w : BitVec g.W) (ws : List (BitVec g.W)) :
    getHdr (octetsOf g.axisWidth (w :: ws)) = w.setWidth 32 := by
  have h4 := g.four_le
  apply BitVec.eq_of_getLsbD_eq
  intro i hi
  have hq : i / 8 < 4 := by omega
  have hm : i % 8 < 8 := by omega
  have hs : 8 * (i / 8) + i % 8 = i := by omega
  have hget : ((octetsOf g.axisWidth (w :: ws)).take 4).getD (i / 8) 0 =
      w.extractLsb' (8 * (i / 8)) 8 := by
    have hlt : i / 8 < (unpackLE g.axisWidth w).length := by simp; omega
    rw [octetsOf, List.flatMap_cons, List.take_append_of_le_length (by simp; omega),
      List.getD_eq_getElem _ _ (by simp; omega), List.getElem_take]
    simp [unpackLE]
  rw [getHdr, getLsbD_packLE _ hi, hget, BitVec.getLsbD_extractLsb', hs]
  simp [hi, hm]

theorem setWidth_of_frame {octets : List Byte} {w : BitVec g.W} {ws : List (BitVec g.W)}
    (hf : frame g octets = w :: ws) : w.setWidth 32 = getHdr octets := by
  have h4 := g.four_le
  have hpos : 0 < octets.length := by
    have hlen := congrArg List.length hf
    simp only [frame, wordsOf_length, List.length_cons] at hlen
    by_contra hcon
    rw [show octets.length = 0 by omega, Nat.div_eq_of_lt (by omega)] at hlen
    omega
  have hw : w = (wordsOf g.axisWidth octets).getD 0 0 := by
    change w = (frame g octets).getD 0 0
    rw [hf]
    rfl
  apply BitVec.eq_of_getLsbD_eq
  intro i hi
  have hW : i < 8 * g.axisWidth := by omega
  have hq : i / 8 < 4 := by omega
  have htake : (octets.take 4).getD (i / 8) 0 = octets.getD (i / 8) 0 := by
    simp [List.getD, hq]
  rw [BitVec.getLsbD_setWidth, hw, getLsbD_getD_wordsOf _ (by omega) hW, getHdr,
    getLsbD_packLE _ hi, htake]
  simp [hi]

theorem getXid_setWidth (w : BitVec g.W) :
    JtagDriver.getXid (w.setWidth 32) = AxisToJtagPkg.getXid w := by
  rw [getXid_eq_extract, AxisToJtagPkg.getXid, extractLsb'_setWidth_low _ (by decide)]
  rfl

theorem getErr_setErr (w : BitVec g.W) (err : BitVec 20) :
    getErr ((AxisToJtagPkg.setErr err w).setWidth 32) = err.toNat % 2 ^ 8 := by
  have hW := g.le_W
  set x := (AxisToJtagPkg.setErr err w).setWidth 32 with hx
  have hcmd : x.extractLsb' 28 2 = AxisToJtagPkg.cmdError := by
    rw [hx, extractLsb'_setWidth_low _ (by decide), AxisToJtagPkg.setErr,
      extractLsb'_putSlice_of_disjoint _ _ _ (by omega) (by omega),
      extractLsb'_putSlice_self _ _ _ (by omega)]
  have hlow : x.extractLsb' 0 20 = err := by
    rw [hx, extractLsb'_setWidth_low _ (by decide), AxisToJtagPkg.setErr,
      extractLsb'_putSlice_self _ _ _ (by omega)]
  -- of the two bits of the command field only bit 29 is set
  have hE : getCmd x = cmdE := by
    apply BitVec.eq_of_getLsbD_eq
    intro i hi
    have hb : ∀ k, k < 2 → x.getLsbD (28 + k) = AxisToJtagPkg.cmdError.getLsbD k := by
      intro k hk
      rw [← hcmd, BitVec.getLsbD_extractLsb']
      simp [hk]
    have h28 := hb 0 (by decide)
    have h29 := hb 1 (by decide)
    have hmask : cmdMask.getLsbD i = (i == 28 || i == 29) := by
      revert i; decide
    have hcmdE : cmdE.getLsbD i = (i == 29) := by
      revert i; decide
    rw [getCmd, BitVec.getLsbD_and, hmask, hcmdE]
    by_cases e28 : i = 28
    · subst e28
      rw [h28]
      decide
    · by_cases e29 : i = 29
      · subst e29
        rw [h29]
        decide
      · have hf : (i == 28 || i == 29) = false := by simp [e28, e29]
        rw [hf, Bool.and_false]
        simp [e29]
  -- the mask keeps the low octet of the code
  have herr : (x &&& errMask).toNat = err.toNat % 2 ^ 8 := by
    have h := toNat_and_mask x (by decide : 8 ≤ 32)
    rw [show errMask = BitVec.ofNat 32 (2 ^ 8 - 1) from rfl, h, ← hlow,
      BitVec.extractLsb'_toNat, BitVec.extractLsb'_toNat]
    simp only [Nat.shiftRight_zero]
    omega
  rw [getErr, if_neg (by simpa using hE)]
  simpa [errShift] using herr

theorem getErr_setErr_ne_zero (w : BitVec g.W) (err : BitVec 20) (h0 : err.toNat % 2 ^ 8 ≠ 0) :
    getErr ((AxisToJtagPkg.setErr err w).setWidth 32) ≠ 0 := by
  rwa [getErr_setErr]

/-- All that serving a frame with header word `w` can do. -/
inductive Served (tap : Tap) (s : Fw g.W) (w : BitVec g.W) (payload : List (BitVec g.W)) :
    List (BitVec g.W) × Fw g.W → Prop
  /-- An error is reported and the core does not start. -/
  | failed (w' : BitVec g.W) (s' : Fw g.W) (err : getErr (w'.setWidth 32) ≠ 0)
      (quiet : starts g s (w :: payload) = false ∧ replays g s (w :: payload) = false)
      (new : s'.xid = s.xid ∨ s'.xid = AxisToJtagPkg.getXid w)
      (valid : s'.memValid = true → s' = s) : Served tap s w payload ([w'], s')
  | query (cmd : AxisToJtagPkg.getCommand w = AxisToJtagPkg.cmdQuery)
      (quiet : starts g s (w :: payload) = false ∧ replays g s (w :: payload) = false) :
      Served tap s w payload ([setQueryData g w], { s with memValid := false })
  | replay (held : replays g s (w :: payload) = true) : Served tap s w payload (w :: s.mem, s)
  | execute (new : starts g s (w :: payload) = true) : Served tap s w payload
      (w :: shiftTdo g tap s.hist w payload,
        { xid := AxisToJtagPkg.getXid w
          memValid := decide (0 < g.memDepth)
          mem := shiftTdo g tap s.hist w payload
          hist := s.hist ++ edgesOf (shiftBits g w payload) })

theorem served (tap : Tap) (s : Fw g.W) (w : BitVec g.W) (payload : List (BitVec g.W)) :
    Served g tap s w payload (serve g tap s (w :: payload)) := by
  cases h : idle g s.xid s.memValid w payload.isEmpty with
  | badVersion =>
    simp only [serve, h]
    exact .failed _ _ (getErr_setErr_ne_zero g _ AxisToJtagPkg.errBadVersion (by decide))
      (by simp [starts, replays, h]) (Or.inl rfl) fun _ => rfl
  | badCommand =>
    simp only [serve, h]
    exact .failed _ _ (getErr_setErr_ne_zero g _ AxisToJtagPkg.errBadCommand (by decide))
      (by simp [starts, replays, h]) (Or.inl rfl) fun _ => rfl
  | truncated =>
    simp only [serve, h]
    exact .failed _ _ (getErr_setErr_ne_zero g _ AxisToJtagPkg.errTruncated (by decide))
      (by simp [starts, replays, h]) (Or.inl rfl) fun _ => rfl
  | query =>
    simp only [serve, h]
    refine .query ?_ (by simp [starts, replays, h])
    unfold idle at h
    split_ifs at h with h1 h2
    exact h2
  | replay =>
    simp only [serve, h]
    exact .replay (by simp [replays, h])
  | execute =>
    simp only [serve, h]
    split_ifs with hl
    · exact .failed _ _ (getErr_setErr_ne_zero g _ AxisToJtagPkg.errTruncated (by decide))
        (by simp [starts, replays, h, hl]) (Or.inr rfl) fun h => absurd h (by simp)
    · exact .execute (by simp [starts, h, hl])

/-- A stored reply answers exactly the frames with the stored ID. -/
theorem xid_of_replays {s : Fw g.W} {w : BitVec g.W} {payload : List (BitVec g.W)}
    (h : replays g s (w :: payload) = true) :
    s.memValid = true ∧ s.xid = AxisToJtagPkg.getXid w ∧
      AxisToJtagPkg.getCommand w = AxisToJtagPkg.cmdTrans := by
  simp only [replays, decide_eq_true_eq] at h
  unfold idle at h
  split_ifs at h with h1 h2 h3 h4 h5 h6
  unfold xidIsNew at h6
  split_ifs at h6 with h7
  · exact absurd rfl h6
  · have hx : AxisToJtagPkg.getXid w = s.xid := by simpa using h6
    have hv : s.memValid = true := by simpa using (not_or.mp h7).2
    exact ⟨hv, hx.symm, h3⟩

theorem not_replays_of_starts {s : Fw g.W} {w : BitVec g.W} {payload : List (BitVec g.W)}
    (h : starts g s (w :: payload) = true) : replays g s (w :: payload) = false := by
  simp only [starts, Bool.and_eq_true, decide_eq_true_eq] at h
  simp [replays, h.1]

theorem replays_of_starts (hd : 0 < g.memDepth) {s s' : Fw g.W} {w : BitVec g.W}
    {payload : List (BitVec g.W)} (h : starts g s (w :: payload) = true)
    (hx : s'.xid = AxisToJtagPkg.getXid w) (hv : s'.memValid = true) :
    replays g s' (w :: payload) = true := by
  simp only [starts, Bool.and_eq_true, decide_eq_true_eq] at h
  have hi := h.1
  simp only [replays, decide_eq_true_eq]
  unfold idle at hi ⊢
  split_ifs at hi with h1 h2 h3 h4 h5 h6
  have hnew : xidIsNew g w s'.xid s'.memValid = false := by
    simp [xidIsNew, hv, hx, Nat.pos_iff_ne_zero.mp hd]
  rw [if_neg h1, if_neg h2, if_pos h3, if_neg h4, if_neg h5, hnew]
  simp

/-- Only shift requests start the core. -/
theorem getCommand_of_starts {s : Fw g.W} {w : BitVec g.W} {payload : List (BitVec g.W)}
    (h : starts g s (w :: payload) = true) :
    AxisToJtagPkg.getCommand w = AxisToJtagPkg.cmdTrans := by
  simp only [starts, Bool.and_eq_true, decide_eq_true_eq] at h
  have hi := h.1
  unfold idle at hi
  split_ifs at hi with h1 h2 h3
  exact h3

end Serve

/-- A message in flight, with the number of the call it belongs to. -/
structure Packet where
  call : ℕ
  octets : List Byte

inductive Kind
  | query
  | shift (bits : ℕ) (tms tdi : Mem)

/-- The octets that `xfer` may store for a call. -/
def Kind.size : Kind → ℕ
  | .query => 0
  | .shift bits _ _ => bytesCeil bits

/-- A call inside `xferRel`: its request and the retries left. -/
structure Waiting where
  call : ℕ
  kind : Kind
  msg : List Byte
  retries : ℕ

/-- An execution on JTAG: the bits shifted and the TDO words captured. -/
structure Exec (W : ℕ) where
  call : ℕ
  bits : List (Bool × Bool)
  tdo : List (BitVec W)

/-- A call that returned normally, with the reply that `xferRel` accepted and the TDO
octets handed back. -/
structure Return where
  call : ℕ
  kind : Kind
  reply : Packet
  tdo : List Byte

variable (g : Generics)

structure Sys where
  drv : Drv
  tdo : Mem
  waiting : Option Waiting
  calls : ℕ
  requests : List Packet
  replies : List Packet
  fw : Fw g.W
  log : List (Exec g.W)
  returns : List Return

/-- A driver process just started, with any value in `xid_`, and a firmware in any state. -/
def Sys.start (txBuf tdo : Mem) (xid : Xid) (fw : Fw g.W) : Sys g where
  drv := Drv.new txBuf xid
  tdo := tdo
  waiting := none
  calls := 0
  requests := []
  replies := []
  fw := fw
  log := []
  returns := []

inductive Event
  | query (retry : ℕ)
  | sendVectors (retry bits : ℕ) (tms tdi : Mem)
  | timeout
  | receive
  | loseRequest (i : ℕ)
  | loseReply (i : ℕ)
  | serve

variable {g}

def Sys.send (s : Sys g) (drv : Drv) (kind : Kind) (retry : ℕ) (msg : List Byte) : Sys g :=
  { s with
    drv := drv
    waiting := some ⟨s.calls, kind, msg, retry⟩
    calls := s.calls + 1
    requests := s.requests ++ [⟨s.calls, msg⟩] }

/-- The next attempt, or `TimeoutErr` when there is none left. -/
def Sys.again (s : Sys g) (p : Waiting) : Sys g :=
  if p.retries = 0 then { s with waiting := none }
  else
    { s with
      waiting := some { p with retries := p.retries - 1 }
      requests := s.requests ++ [⟨p.call, p.msg⟩] }

/-- The call has accepted the reply `r` with header `hdr`. -/
def Sys.accept (s : Sys g) (p : Waiting) (r : Packet) (hdr : Header) : Sys g :=
  match p.kind with
  | .shift bits _ _ =>
    { s with
      waiting := none
      returns := s.returns ++ [⟨p.call, p.kind, r, slice s.tdo 0 (bytesCeil bits)⟩] }
  | .query =>
    match s.drv.adopt hdr with
    | (some _, d) => { s with waiting := none, drv := d }
    | (none, d) =>
      { s with
        waiting := none
        drv := d
        returns := s.returns ++ [⟨p.call, p.kind, r, []⟩] }

/-- A reply taken from the socket by `xfer` and judged by `xferRel`. -/
def Sys.receive (s : Sys g) (p : Waiting) (r : Packet) : Sys g :=
  match storeReply r.octets s.drv.wordSize p.kind.size s.tdo 0 with
  | (.error _, tdo) => { s with tdo := tdo, waiting := none }
  | (.ok hdr, tdo) =>
    match judge (getXid (getHdr p.msg)) hdr with
    | .fail _ => { s with tdo := tdo, waiting := none }
    | .ignore => { s with tdo := tdo : Sys g }.again p
    | .accept => { s with tdo := tdo : Sys g }.accept p r hdr

/-- The firmware serves the request `m`. -/
def Sys.serve (tap : Tap) (s : Sys g) (m : Packet) : Sys g :=
  let r := AxisToJtag.serve g tap s.fw (frame g m.octets)
  { s with
    fw := r.2
    replies := s.replies ++ [⟨m.call, octetsOf g.axisWidth r.1⟩]
    log := if starts g s.fw (frame g m.octets) then
        s.log ++ [⟨m.call,
          shiftBits g ((frame g m.octets).headD 0) (frame g m.octets).tail, r.1.tail⟩]
      else s.log }

/-- The effect of an event; one that cannot happen changes nothing.  After a query has
left a word size below the header's, `setHdr` clears memory without end and the process
makes no further call. -/
def Sys.next (tap : Tap) (s : Sys g) : Event → Sys g
  | .query retry =>
    if s.waiting.isNone ∧ 4 ≤ s.drv.wordSize then
      s.send s.drv.afterQueryMsg .query retry s.drv.queryMsg
    else s
  | .sendVectors retry bits tms tdi =>
    if s.waiting.isNone ∧ 4 ≤ s.drv.wordSize then
      s.send (s.drv.afterShift bits tms tdi) (.shift bits tms tdi) retry
        (s.drv.shiftMsg bits tms tdi)
    else s
  | .timeout =>
    match s.waiting with
    | some p => s.again p
    | none => s
  | .receive =>
    match s.waiting, s.replies with
    | some p, r :: rs => { s with replies := rs : Sys g }.receive p r
    | _, _ => s
  | .loseRequest i => { s with requests := s.requests.eraseIdx i }
  | .loseReply i => { s with replies := s.replies.eraseIdx i }
  | .serve =>
    match s.requests with
    | m :: ms => { s with requests := ms : Sys g }.serve tap m
    | [] => s

def Sys.run (tap : Tap) (s : Sys g) (evs : List Event) : Sys g := runFrom (Sys.next tap) s evs

/-- An event does nothing, or what its party does. -/
inductive Step (tap : Tap) (s : Sys g) : Event → Sys g → Prop
  | skip (ev : Event) : Step tap s ev s
  | query (retry : ℕ) (idle : s.waiting = none) (size : 4 ≤ s.drv.wordSize) :
      Step tap s (.query retry) (s.send s.drv.afterQueryMsg .query retry s.drv.queryMsg)
  | sendVectors (retry bits : ℕ) (tms tdi : Mem) (idle : s.waiting = none)
      (size : 4 ≤ s.drv.wordSize) : Step tap s (.sendVectors retry bits tms tdi)
        (s.send (s.drv.afterShift bits tms tdi) (.shift bits tms tdi) retry
          (s.drv.shiftMsg bits tms tdi))
  | timeout (p : Waiting) (wait : s.waiting = some p) : Step tap s .timeout (s.again p)
  | receive (p : Waiting) (r : Packet) (rs : List Packet) (wait : s.waiting = some p)
      (first : s.replies = r :: rs) :
      Step tap s .receive ({ s with replies := rs : Sys g }.receive p r)
  | lose (ev : Event) (requests replies : List Packet) (hreq : requests.Sublist s.requests)
      (hrep : replies.Sublist s.replies) :
      Step tap s ev { s with requests := requests, replies := replies }
  | serve (m : Packet) (ms : List Packet) (first : s.requests = m :: ms) :
      Step tap s .serve ({ s with requests := ms : Sys g }.serve tap m)

theorem Sys.step (tap : Tap) (s : Sys g) (ev : Event) : Step tap s ev (s.next tap ev) := by
  cases ev with
  | query retry =>
    simp only [Sys.next]
    split_ifs with hidle
    · exact .query retry (Option.isNone_iff_eq_none.mp hidle.1) hidle.2
    · exact .skip _
  | sendVectors retry bits tms tdi =>
    simp only [Sys.next]
    split_ifs with hidle
    · exact .sendVectors retry bits tms tdi (Option.isNone_iff_eq_none.mp hidle.1) hidle.2
    · exact .skip _
  | timeout =>
    simp only [Sys.next]
    cases hw : s.waiting with
    | none => exact .skip _
    | some p => exact .timeout p hw
  | receive =>
    simp only [Sys.next]
    split
    next p r rs hw hr => exact .receive p r rs hw hr
    next => exact .skip _
  | loseRequest i => exact .lose _ _ _ (List.eraseIdx_sublist _ _) (List.Sublist.refl _)
  | loseReply i => exact .lose _ _ _ (List.Sublist.refl _) (List.eraseIdx_sublist _ _)
  | serve =>
    simp only [Sys.next]
    cases hm : s.requests with
    | nil => exact .skip _
    | cons m ms => exact .serve m ms hm

theorem Sys.again_cases (s : Sys g) (p : Waiting) :
    s.again p = { s with waiting := none } ∨
      ∃ n, s.again p =
        { s with
          waiting := some { p with retries := n }
          requests := s.requests ++ [⟨p.call, p.msg⟩] } := by
  unfold Sys.again
  split_ifs
  · exact Or.inl rfl
  · exact Or.inr ⟨_, rfl⟩

theorem Sys.receive_cases (s : Sys g) (p : Waiting) (r : Packet) :
    (∃ tdo, s.receive p r = { s with tdo := tdo, waiting := none }) ∨
      (∃ tdo, s.receive p r = { s with tdo := tdo : Sys g }.again p) ∨
      ∃ tdo, storeReply r.octets s.drv.wordSize p.kind.size s.tdo 0 =
          (.ok (getHdr r.octets), tdo) ∧
        judge (getXid (getHdr p.msg)) (getHdr r.octets) = .accept ∧
        s.receive p r = { s with tdo := tdo : Sys g }.accept p r (getHdr r.octets) := by
  unfold Sys.receive
  cases hs : storeReply r.octets s.drv.wordSize p.kind.size s.tdo 0 with
  | mk res tdo =>
    cases res with
    | error e => exact Or.inl ⟨tdo, rfl⟩
    | ok hdr =>
      have hh : hdr = getHdr r.octets := by
        unfold storeReply at hs
        split_ifs at hs
        · simp at hs
        · simp only [Prod.mk.injEq, Except.ok.injEq] at hs
          exact hs.1.symm
      subst hh
      dsimp only
      cases hj : judge (getXid (getHdr p.msg)) (getHdr r.octets) with
      | fail e => exact Or.inl ⟨tdo, rfl⟩
      | ignore => exact Or.inr (Or.inl ⟨tdo, rfl⟩)
      | accept => exact Or.inr (Or.inr ⟨tdo, rfl, rfl, rfl⟩)

theorem Sys.accept_frame (s : Sys g) (p : Waiting) (r : Packet) (hdr : Header) :
    (s.accept p r hdr).waiting = none ∧ (s.accept p r hdr).calls = s.calls ∧
      (s.accept p r hdr).requests = s.requests ∧ (s.accept p r hdr).replies = s.replies ∧
      (s.accept p r hdr).fw = s.fw ∧ (s.accept p r hdr).log = s.log := by
  unfold Sys.accept
  split
  · simp
  · split <;> simp

end XvcSupport.Protocol
