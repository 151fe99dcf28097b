import XvcSupport.AtMostOnce

namespace XvcSupport.Protocol

open JtagDriver AxisToJtag

variable {g : Generics}

section Headers

variable (g)

theorem getCommand_setWidth (w : BitVec g.W) :
    AxisToJtagPkg.getCommand (w.setWidth 32) = AxisToJtagPkg.getCommand w :=
  extractLsb'_setWidth_low _ (by decide)

theorem getXid_setQueryData (w : BitVec g.W) :
    JtagDriver.getXid ((setQueryData g w).setWidth 32) = g.tckBits := by
  have hW := g.le_W
  rw [getXid_setWidth, AxisToJtagPkg.getXid, setQueryData,
    extractLsb'_putSlice_self _ _ _ (by omega)]

/-- The ID in the reply to a request with this header, unless it is an error. -/
def replyXid (hdr : Header) : Xid :=
  if AxisToJtagPkg.getCommand hdr = AxisToJtagPkg.cmdQuery then g.tckBits else getXid hdr

theorem octetsOf_length (wsz : ℕ) (ws : List (BitVec (8 * wsz))) :
    (octetsOf wsz ws).length = ws.length * wsz := by
  induction ws with
  | nil => simp [octetsOf]
  | cons w ws ih =>
    rw [octetsOf, List.flatMap_cons, List.length_append, ← octetsOf, ih, unpackLE_length,
      List.length_cons, Nat.add_mul]
    omega

theorem getHdr_served (tap : Tap) (fw : Fw g.W) {octets : List Byte} {w : BitVec g.W}
    {ws : List (BitVec g.W)} (hf : frame g octets = w :: ws)
    (h0 : getErr (getHdr (octetsOf g.axisWidth (AxisToJtag.serve g tap fw (w :: ws)).1)) = 0) :
    (AxisToJtagPkg.getCommand (getHdr octets) = AxisToJtagPkg.cmdQuery ∧
      getHdr (octetsOf g.axisWidth (AxisToJtag.serve g tap fw (w :: ws)).1) =
        (setQueryData g w).setWidth 32) ∨
    (AxisToJtagPkg.getCommand (getHdr octets) = AxisToJtagPkg.cmdTrans ∧
      getHdr (octetsOf g.axisWidth (AxisToJtag.serve g tap fw (w :: ws)).1) = getHdr octets) := by
  have hw := setWidth_of_frame g hf
  have hserved := served g tap fw w ws
  generalize AxisToJtag.serve g tap fw (w :: ws) = r at hserved h0 ⊢
  rw [← hw]
  cases hserved with
  | failed w' fw' err hq new valid =>
    rw [getHdr_octetsOf] at h0
    exact absurd h0 err
  | query cmd hq =>
    rw [getHdr_octetsOf, getCommand_setWidth]
    exact Or.inl ⟨cmd, rfl⟩
  | replay held =>
    rw [getHdr_octetsOf, getCommand_setWidth]
    exact Or.inr ⟨(xid_of_replays g held).2.2, rfl⟩
  | execute hst =>
    rw [getHdr_octetsOf, getCommand_setWidth]
    exact Or.inr ⟨getCommand_of_starts g hst, rfl⟩

theorem getXid_served (tap : Tap) (fw : Fw g.W) {octets : List Byte} {w : BitVec g.W}
    {ws : List (BitVec g.W)} (hf : frame g octets = w :: ws)
    (h0 : getErr (getHdr (octetsOf g.axisWidth (AxisToJtag.serve g tap fw (w :: ws)).1)) = 0) :
    JtagDriver.getXid (getHdr (octetsOf g.axisWidth (AxisToJtag.serve g tap fw (w :: ws)).1)) =
      replyXid g (getHdr octets) := by
  rcases getHdr_served g tap fw hf h0 with ⟨hc, hh⟩ | ⟨hc, hh⟩
  · rw [hh, getXid_setQueryData, replyXid, if_pos hc]
  · rw [hh, replyXid, hc, if_neg (by decide)]

end Headers

/-- When a shift with ID `x` starts, nothing in flight and no stored reply can pass for the
reply to it. -/
structure Fresh (s : Sys g) (x : Xid) : Prop where
  replies : ∀ r ∈ s.replies, getErr (getHdr r.octets) = 0 → getXid (getHdr r.octets) ≠ x
  requests : ∀ m ∈ s.requests, replyXid g (getHdr m.octets) ≠ x
  stored : s.fw.memValid = true → s.fw.xid ≠ x

/-- A shift starts with the target's word size, a length its header can hold, and a fresh
ID. -/
def StartsFresh (s : Sys g) : Event → Prop
  | .sendVectors _ bits _ _ => s.waiting = none → s.drv.wordSize = g.axisWidth ∧
      1 ≤ bits ∧ bits ≤ 2 ^ 20 ∧ Fresh s (newXid s.drv.xid)
  | _ => True

/-- The reply accepted for a shift is the one to its own request: the vectors were executed
on JTAG, and the TDO handed back is the one of that execution. -/
def Return.Own (log : List (Exec g.W)) (r : Return) : Prop :=
  ∀ bits tms tdi, r.kind = .shift bits tms tdi → r.reply.call = r.call ∧
    ∃ e ∈ log, e.call = r.call ∧
      e.bits = ((List.range bits).map fun i => (memBit tms i, memBit tdi i)) ∧
      r.tdo = (octetsOf g.axisWidth e.tdo).take (bytesCeil bits)

/-- A shift in progress, with the message `msg` of a driver that knows the word size. -/
structure Current (s : Sys g) (p : Waiting) (bits : ℕ) (tms tdi : Mem) : Prop where
  wordSize : s.drv.wordSize = g.axisWidth
  one_le : 1 ≤ bits
  le : bits ≤ 2 ^ 20
  msg : ∃ d : Drv, p.msg = { d with wordSize := g.axisWidth : Drv }.shiftMsg bits tms tdi
  replies : ∀ r ∈ s.replies, r.call ≠ p.call → getErr (getHdr r.octets) = 0 →
    getXid (getHdr r.octets) ≠ getXid (getHdr p.msg)
  requests : ∀ m ∈ s.requests, m.call ≠ p.call →
    replyXid g (getHdr m.octets) ≠ getXid (getHdr p.msg)
  stored : (∀ e ∈ s.log, e.call ≠ p.call) → s.fw.memValid = true →
    s.fw.xid ≠ getXid (getHdr p.msg)
  executed : ∀ e ∈ s.log, e.call = p.call → s.fw.mem = e.tdo ∧
    e.bits = ((List.range bits).map fun i => (memBit tms i, memBit tdi i)) ∧
    bytesCeil bits ≤ e.tdo.length * g.axisWidth
  own : ∀ r ∈ s.replies, r.call = p.call → getErr (getHdr r.octets) = 0 →
    ∃ e ∈ s.log, e.call = p.call ∧ ∃ w, r.octets = octetsOf g.axisWidth (w :: e.tdo)

theorem pairs_length {W : ℕ} (ws : List (BitVec W)) : (pairs ws).length = ws.length / 2 := by
  induction ws using pairs.induct with
  | case1 tms tdi rest ih =>
    rw [pairs, List.length_cons, ih, List.length_cons, List.length_cons]
    omega
  | case2 ws hws =>
    cases ws with
    | nil => simp [pairs]
    | cons w ws =>
      cases ws with
      | nil => simp [pairs]
      | cons w' ws => exact absurd rfl (hws w w' ws)

section Shift

variable (d : Drv) (tms tdi : Mem) {bits : ℕ} (h1 : 1 ≤ bits) (h20 : bits ≤ 2 ^ 20)

include h1 h20

theorem frame_shiftMsg :
    ∃ w ws, frame g ({ d with wordSize := g.axisWidth : Drv }.shiftMsg bits tms tdi) = w :: ws ∧
      AxisToJtagPkg.getCommand w = AxisToJtagPkg.cmdTrans ∧
      AxisToJtagPkg.getXid w = newXid d.xid ∧
      shiftLen g w ws = bits ∧
      shiftBits g w ws = (List.range bits).map fun i => (memBit tms i, memBit tdi i) := by
  have hW := g.le_W
  have hb : bits < 2 ^ 32 := by omega
  set d' : Drv := { d with wordSize := g.axisWidth } with hd
  obtain ⟨hcons, hlen⟩ := wordsOf_shiftMsg d' tms tdi g.four_le g.le_sixteen hb
  have hdec := decode_shiftMsg d' tms tdi g.four_le g.le_sixteen hb h1 h20
  have hgl : (AxisToJtagPkg.getLen ((mkShift (newXid d.xid) bits).setWidth g.W)).toNat + 1 =
      bits := by
    rw [AxisToJtagPkg.getLen, extractLsb'_setWidth_high _ hW (by decide), ← AxisToJtagPkg.getLen,
      getLen_mkShift _ h1 hb, Nat.mod_eq_of_lt (by omega)]
    omega
  set ws := (wordsOf g.axisWidth (d'.shiftMsg bits tms tdi)).tail with hws
  have hwslen : ws.length = 2 * ((bytesCeil bits + g.axisWidth - 1) / g.axisWidth) := by
    rw [hws, List.length_tail]
    exact (congrArg (· - 1) hlen).trans (Nat.add_sub_cancel_left _ _)
  have hshift : shiftLen g ((mkShift (newXid d.xid) bits).setWidth g.W) ws = bits := by
    have hc := le_ceil_mul (by have := g.four_le; omega : 0 < g.axisWidth) (bytesCeil bits)
    rw [shiftLen, hgl, pairs_length, hwslen, Nat.mul_div_cancel_left _ (by decide)]
    apply min_eq_left
    have hm : g.W * ((bytesCeil bits + g.axisWidth - 1) / g.axisWidth) =
        8 * ((bytesCeil bits + g.axisWidth - 1) / g.axisWidth * g.axisWidth) := by
      unfold Generics.W
      ring
    have hle : bits ≤ 8 * bytesCeil bits := by unfold bytesCeil; omega
    omega
  refine ⟨_, ws, hcons, ?_, ?_, hshift, ?_⟩
  · rw [AxisToJtagPkg.getCommand, extractLsb'_setWidth_high _ hW (by decide)]
    exact getCommand_mkShift _ h1 h20
  · rw [AxisToJtagPkg.getXid, extractLsb'_setWidth_high _ hW (by decide)]
    exact getXid_mkShift _ h1 h20
  · rw [shiftBits, hshift, ← hdec, decode, hcons]
    exact congrArg (fun n => vecBits n (pairs ws)) hgl.symm

theorem getXid_shiftMsg :
    getXid (getHdr ({ d with wordSize := g.axisWidth : Drv }.shiftMsg bits tms tdi)) =
      newXid d.xid := by
  obtain ⟨w, ws, hf, -, hx, -⟩ := frame_shiftMsg (g := g) d tms tdi h1 h20
  rw [← setWidth_of_frame g hf, getXid_setWidth, hx]

omit h1 h20 in
theorem bytesCeil_le_tdo (tap : Tap) (hist : List Edge) {w : BitVec g.W} {ws : List (BitVec g.W)}
    (hl : shiftLen g w ws = bits) :
    bytesCeil bits ≤ (shiftTdo g tap hist w ws).length * g.axisWidth := by
  have h4 := g.four_le
  rw [shiftTdo, List.length_map, List.length_range, hl, wordCount]
  have hc := le_ceil_mul (by have := g.le_W; omega : 0 < g.W) bits
  have hm : (bits + g.W - 1) / g.W * g.W = 8 * ((bits + g.W - 1) / g.W * g.axisWidth) := by
    rw [show g.W = 8 * g.axisWidth from rfl]
    ring
  unfold bytesCeil
  omega

end Shift

section Steps

variable {s : Sys g} {p : Waiting} {bits : ℕ} {tms tdi : Mem}

theorem Current.forget {s' : Sys g} (h : Current s p bits tms tdi)
    (hreq : s'.requests.Sublist s.requests) (hrep : s'.replies.Sublist s.replies)
    (hd : s'.drv = s.drv) (hfw : s'.fw = s.fw) (hlog : s'.log = s.log) :
    Current s' p bits tms tdi where
  wordSize := hd ▸ h.wordSize
  one_le := h.one_le
  le := h.le
  msg := h.msg
  replies r hr := h.replies r (hrep.subset hr)
  requests m hm := h.requests m (hreq.subset hm)
  stored := by
    rw [hfw, hlog]
    exact h.stored
  executed := by
    rw [hfw, hlog]
    exact h.executed
  own r hr := by
    rw [hlog]
    exact h.own r (hrep.subset hr)

theorem Current.getXid_ne_zero (h : Current s p bits tms tdi) :
    getXid (getHdr p.msg) ≠ xidAny := by
  obtain ⟨d, hd⟩ := h.msg
  rw [hd, getXid_shiftMsg d tms tdi h.one_le h.le]
  exact newXid_ne_zero _

/-- A request of another call is served: nothing of this call has been executed, and
neither the reply nor the state left behind can pass for this call's. -/
theorem Current.serve_other (ho : Ordered s) (hw : s.waiting = some p)
    (h : Current s p bits tms tdi) (tap : Tap) {m : Packet} {ms : List Packet}
    (hm : s.requests = m :: ms) (hne : m.call ≠ p.call) :
    Current ({ s with requests := ms : Sys g }.serve tap m) p bits tms tdi := by
  have hmem : m ∈ s.requests := hm ▸ List.mem_cons_self
  have hsub : ∀ m' ∈ ms, m' ∈ s.requests := fun m' hm' => hm ▸ List.mem_cons_of_mem _ hm'
  have hlt := ho.below m hmem
  have hcall := (ho.waits p hw).1
  have hnone : ∀ e ∈ s.log, e.call ≠ p.call := by
    intro e he heq
    have := (ho.logBelow e he).2 m hmem
    omega
  have hx := h.requests m hmem hne
  -- the log only gains executions of the other call
  have hlog : ∀ e ∈ ({ s with requests := ms : Sys g }.serve tap m).log, e.call ≠ p.call := by
    intro e he
    simp only [Sys.serve] at he
    split_ifs at he
    · rcases List.mem_append.mp he with he | he
      · exact hnone e he
      · rw [List.mem_singleton.mp he]
        exact hne
    · exact hnone e he
  have hreply : getErr (getHdr (octetsOf g.axisWidth
      (AxisToJtag.serve g tap s.fw (frame g m.octets)).1)) = 0 →
      getXid (getHdr (octetsOf g.axisWidth
        (AxisToJtag.serve g tap s.fw (frame g m.octets)).1)) ≠ getXid (getHdr p.msg) := by
    intro h0
    cases hf : frame g m.octets with
    | nil =>
      -- an empty frame gets no reply word, and its header reads as zero
      have hz : getXid (getHdr (octetsOf g.axisWidth
          (AxisToJtag.serve g tap s.fw []).1)) = xidAny := by
        simp [AxisToJtag.serve, octetsOf, getHdr, packLE, getXid, xidAny]
      rw [hz]
      exact h.getXid_ne_zero.symm
    | cons w ws =>
      rw [hf] at h0
      rw [getXid_served g tap s.fw hf h0]
      exact hx
  have hstored : (AxisToJtag.serve g tap s.fw (frame g m.octets)).2.memValid = true →
      (AxisToJtag.serve g tap s.fw (frame g m.octets)).2.xid ≠ getXid (getHdr p.msg) := by
    cases hf : frame g m.octets with
    | nil => exact h.stored hnone
    | cons w ws =>
      have hwx : getXid (getHdr m.octets) = AxisToJtagPkg.getXid w := by
        rw [← setWidth_of_frame g hf, getXid_setWidth]
      have hserved := served g tap s.fw w ws
      generalize AxisToJtag.serve g tap s.fw (w :: ws) = r at hserved
      cases hserved with
      | failed w' fw err hq new valid =>
        intro hv
        have hs := valid hv
        subst hs
        exact h.stored hnone hv
      | query cmd hq =>
        intro hv
        cases hv
      | replay held => exact h.stored hnone
      | execute hst =>
        intro _
        have hcmd := getCommand_of_starts g hst
        rw [← getCommand_setWidth, setWidth_of_frame g hf] at hcmd
        rw [replyXid, hcmd, if_neg (by decide), hwx] at hx
        exact hx
  refine ⟨h.wordSize, h.one_le, h.le, h.msg, fun r hr hc h0 => ?_,
    fun m' hm' => h.requests m' (hsub m' hm'), fun _ => hstored,
    fun e he hc => absurd hc (hlog e he), fun r hr hc h0 => ?_⟩
  · rcases List.mem_append.mp hr with hr | hr
    · exact h.replies r hr hc h0
    · rw [List.mem_singleton.mp hr] at h0 ⊢
      exact hreply h0
  · rcases List.mem_append.mp hr with hr | hr
    · obtain ⟨e, he, hec, -⟩ := h.own r hr hc h0
      exact absurd hec (hnone e he)
    · rw [List.mem_singleton.mp hr] at hc
      exact absurd hc hne

/-- A request of this call is served: it is executed, or answered from the execution, or
refused. -/
theorem Current.serve_own (ho : Ordered s) (hw : s.waiting = some p)
    (h : Current s p bits tms tdi) (tap : Tap) {m : Packet} {ms : List Packet}
    (hm : s.requests = m :: ms) (heq : m.call = p.call) :
    Current ({ s with requests := ms : Sys g }.serve tap m) p bits tms tdi := by
  have hmem : m ∈ s.requests := hm ▸ List.mem_cons_self
  have hsub : ∀ m' ∈ ms, m' ∈ s.requests := fun m' hm' => hm ▸ List.mem_cons_of_mem _ hm'
  obtain ⟨d, hd⟩ := h.msg
  obtain ⟨w, ws, hf, hcmd, hwx, hsl, hsb⟩ := frame_shiftMsg (g := g) d tms tdi h.one_le h.le
  have hoct : m.octets = p.msg := (ho.waits p hw).2 m hmem heq
  rw [← hd, ← hoct] at hf
  have hx : AxisToJtagPkg.getXid w = getXid (getHdr p.msg) := by
    rw [← hoct, ← setWidth_of_frame g hf, getXid_setWidth]
  -- the reply to a request of this call is no reply of another one
  have hother : ∀ octets, ∀ r ∈ s.replies ++ [⟨m.call, octets⟩], r.call ≠ p.call →
      getErr (getHdr r.octets) = 0 → getXid (getHdr r.octets) ≠ getXid (getHdr p.msg) := by
    intro octets r hr hc
    rcases List.mem_append.mp hr with hr | hr
    · exact h.replies r hr hc
    · rw [List.mem_singleton.mp hr] at hc
      exact absurd heq hc
  -- a request that starts the core, or is refused, is the first of its call
  have hfirst : replays g s.fw (w :: ws) = false → ∀ e ∈ s.log, e.call ≠ p.call := by
    intro hno e he hc
    have hheld := (ho.held e he).1 m hmem (heq.trans hc.symm)
    rw [hf, hno] at hheld
    cases hheld
  have hserved := served g tap s.fw w ws
  simp only [Sys.serve, hf]
  generalize AxisToJtag.serve g tap s.fw (w :: ws) = r at hserved
  cases hserved with
  | query cmd hq =>
    rw [hcmd] at cmd
    exact absurd cmd (by decide)
  | failed w' fw err hq new valid =>
    have hnone := hfirst hq.2
    simp only [hq.1, Bool.false_eq_true, if_false]
    refine ⟨h.wordSize, h.one_le, h.le, h.msg, fun r hr hc h0 => hother _ r hr hc h0,
      fun m' hm' => h.requests m' (hsub m' hm'), fun _ hv => ?_,
      fun e he hc => absurd hc (hnone e he), fun r hr hc h0 => ?_⟩
    · have hs := valid hv
      subst hs
      exact h.stored hnone hv
    · rcases List.mem_append.mp hr with hr | hr
      · exact h.own r hr hc h0
      · rw [List.mem_singleton.mp hr, getHdr_octetsOf] at h0
        exact absurd h0 err
  | replay held =>
    have hst : starts g s.fw (w :: ws) = false := by
      by_contra hcon
      rw [not_replays_of_starts g (by simpa using hcon)] at held
      cases held
    obtain ⟨hv, hsx, -⟩ := xid_of_replays g held
    -- the stored reply is the one of an execution of this call
    obtain ⟨e, he, hec⟩ : ∃ e ∈ s.log, e.call = p.call := by
      by_contra hcon
      push Not at hcon
      exact h.stored hcon hv (hsx.trans hx)
    simp only [hst, Bool.false_eq_true, if_false]
    refine ⟨h.wordSize, h.one_le, h.le, h.msg, fun r hr hc h0 => hother _ r hr hc h0,
      fun m' hm' => h.requests m' (hsub m' hm'), h.stored, h.executed, fun r hr hc h0 => ?_⟩
    · rcases List.mem_append.mp hr with hr | hr
      · exact h.own r hr hc h0
      · rw [List.mem_singleton.mp hr]
        exact ⟨e, he, hec, w, by rw [(h.executed e he hec).1]⟩
  | execute hst =>
    have hnone := hfirst (not_replays_of_starts g hst)
    simp only [hst, if_true]
    refine ⟨h.wordSize, h.one_le, h.le, h.msg, fun r hr hc h0 => hother _ r hr hc h0,
      fun m' hm' => h.requests m' (hsub m' hm'), fun hno => ?_, fun e he hc => ?_,
      fun r hr hc h0 => ?_⟩
    · exact absurd heq (hno _ (List.mem_append_right _ (List.mem_singleton.mpr rfl)))
    · rcases List.mem_append.mp he with he | he
      · exact absurd hc (hnone e he)
      · rw [List.mem_singleton.mp he]
        exact ⟨rfl, hsb, bytesCeil_le_tdo tap s.fw.hist hsl⟩
    · rcases List.mem_append.mp hr with hr | hr
      · obtain ⟨e, he, hec, -⟩ := h.own r hr hc h0
        exact absurd hec (hnone e he)
      · rw [List.mem_singleton.mp hr]
        exact ⟨_, List.mem_append_right _ (List.mem_singleton.mpr rfl), heq, w, rfl⟩

end Steps

/-- Every shift so far returned the TDO of its own execution, and the one in progress
will. -/
structure Faithful (s : Sys g) : Prop where
  ordered : Ordered s
  repliesBelow : ∀ r ∈ s.replies, r.call < s.calls
  current : ∀ p bits tms tdi, s.waiting = some p → p.kind = .shift bits tms tdi →
    Current s p bits tms tdi
  returned : ∀ r ∈ s.returns, r.Own s.log

theorem Return.Own.mono {log log' : List (Exec g.W)} {r : Return} (h : r.Own log)
    (hsub : ∀ e ∈ log, e ∈ log') : r.Own log' := by
  intro bits tms tdi hk
  obtain ⟨h1, e, he, h2⟩ := h bits tms tdi hk
  exact ⟨h1, e, hsub e he, h2⟩

section Run

variable {s : Sys g}

theorem Faithful.start (txBuf tdo : Mem) (xid : Xid) (fw : Fw g.W) :
    Faithful (Sys.start g txBuf tdo xid fw) where
  ordered := Ordered.start txBuf tdo xid fw
  repliesBelow := nofun
  current := nofun
  returned := nofun

theorem Faithful.forget {s' : Sys g} (h : Faithful s) (ho : Ordered s')
    (hreq : s'.requests.Sublist s.requests) (hrep : s'.replies.Sublist s.replies)
    (hw : s'.waiting = none ∨ s'.waiting = s.waiting ∧ s'.drv = s.drv)
    (hc : s'.calls = s.calls) (hfw : s'.fw = s.fw) (hlog : s'.log = s.log)
    (hret : s'.returns = s.returns) : Faithful s' where
  ordered := ho
  repliesBelow r hr := hc ▸ h.repliesBelow r (hrep.subset hr)
  current p bits tms tdi hp hk := by
    rcases hw with hw | ⟨hw, hd⟩
    · rw [hw] at hp
      cases hp
    · exact (h.current p bits tms tdi (hw ▸ hp) hk).forget hreq hrep hd hfw hlog
  returned := by
    rw [hret, hlog]
    exact h.returned

theorem Faithful.again (h : Faithful s) {p : Waiting} (hp : s.waiting = some p) :
    Faithful (s.again p) := by
  have ho := h.ordered.again hp
  rcases s.again_cases p with ha | ⟨n, ha⟩
  · rw [ha] at ho ⊢
    exact h.forget ho (List.Sublist.refl _) (List.Sublist.refl _) (Or.inl rfl) rfl rfl rfl rfl
  · rw [ha] at ho ⊢
    refine ⟨ho, h.repliesBelow, fun q bits tms tdi hq hk => ?_, h.returned⟩
    obtain rfl := Option.some.inj hq
    have hcur := h.current p bits tms tdi hp hk
    refine ⟨hcur.wordSize, hcur.one_le, hcur.le, hcur.msg, hcur.replies, fun m hm hne => ?_,
      hcur.stored, hcur.executed, hcur.own⟩
    rcases List.mem_append.mp hm with hm | hm
    · exact hcur.requests m hm hne
    · rw [List.mem_singleton.mp hm] at hne
      exact absurd rfl hne

theorem Current.accepted {p : Waiting} {bits : ℕ} {tms tdi : Mem} {r : Packet}
    (h : Current s p bits tms tdi) (hr : r ∈ s.replies)
    (hj : judge (getXid (getHdr p.msg)) (getHdr r.octets) = .accept) {tdo : Mem}
    (hst : storeReply r.octets s.drv.wordSize (bytesCeil bits) s.tdo 0 =
      (.ok (getHdr r.octets), tdo)) :
    r.call = p.call ∧ ∃ e ∈ s.log, e.call = p.call ∧
      e.bits = ((List.range bits).map fun i => (memBit tms i, memBit tdi i)) ∧
      slice tdo 0 (bytesCeil bits) = (octetsOf g.axisWidth e.tdo).take (bytesCeil bits) := by
  obtain ⟨h0, hx⟩ : getErr (getHdr r.octets) = 0 ∧
      getXid (getHdr r.octets) = getXid (getHdr p.msg) := by
    unfold judge at hj
    split_ifs at hj with he hx
    rcases hx with hx | hx
    · exact absurd hx h.getXid_ne_zero
    · exact ⟨not_not.mp he, hx.symm⟩
  have hcall : r.call = p.call := by
    by_contra hne
    exact h.replies r hr hne h0 hx
  obtain ⟨e, he, hec, w, hoct⟩ := h.own r hr hcall h0
  obtain ⟨-, hbits, hlen⟩ := h.executed e he hec
  refine ⟨hcall, e, he, hec, hbits, ?_⟩
  have hdrop : r.octets.drop g.axisWidth = octetsOf g.axisWidth e.tdo := by
    rw [hoct, octetsOf, List.flatMap_cons, List.drop_append_of_le_length (by simp),
      List.drop_eq_nil_of_le (by simp), List.nil_append]
    rfl
  have hrlen : r.octets.length - g.axisWidth = e.tdo.length * g.axisWidth := by
    rw [← octetsOf_length, ← hdrop, List.length_drop]
  unfold storeReply at hst
  split_ifs at hst with hshort
  · simp at hst
  simp only [Prod.mk.injEq, true_and] at hst
  rw [← hst, h.wordSize, hrlen, min_eq_left hlen, hdrop]
  apply List.ext_getElem
  · rw [slice_length, List.length_take, octetsOf_length, min_eq_left hlen]
  · intro i hi hi'
    have hib : i < bytesCeil bits := by simpa using hi
    have hmem : memcpy s.tdo 0 (memOf (octetsOf g.axisWidth e.tdo)) 0 (bytesCeil bits) (0 + i) =
        memOf (octetsOf g.axisWidth e.tdo) (i + 0) := memcpy_inside hib
    simp only [slice, List.getElem_map, List.getElem_range, hmem, List.getElem_take]
    exact List.getD_eq_getElem _ _ (by rw [octetsOf_length]; omega)

theorem Faithful.receive (h : Faithful s) {p : Waiting} (hp : s.waiting = some p) {r : Packet}
    {rs : List Packet} (hr : s.replies = r :: rs) :
    Faithful ({ s with replies := rs : Sys g }.receive p r) := by
  have hmem : r ∈ s.replies := hr ▸ List.mem_cons_self
  have hsub : rs.Sublist s.replies := hr ▸ List.sublist_cons_self r rs
  have htdo : ∀ tdo, Faithful { s with replies := rs, tdo := tdo } := fun tdo =>
    h.forget (h.ordered.forget (List.Sublist.refl _) (Or.inr rfl) rfl rfl rfl)
      (List.Sublist.refl _) hsub (Or.inr ⟨rfl, rfl⟩) rfl rfl rfl rfl
  rcases Sys.receive_cases { s with replies := rs } p r with
    ⟨tdo, he⟩ | ⟨tdo, he⟩ | ⟨tdo, hst, hj, he⟩
  · rw [he]
    exact (htdo tdo).forget
      ((htdo tdo).ordered.forget (List.Sublist.refl _) (Or.inl rfl) rfl rfl rfl)
      (List.Sublist.refl _) (List.Sublist.refl _) (Or.inl rfl) rfl rfl rfl rfl
  · rw [he]
    exact (htdo tdo).again hp
  · rw [he]
    have hframe := Sys.accept_frame { s with replies := rs, tdo := tdo } p r (getHdr r.octets)
    obtain ⟨h1, h2, h3, h4, h5, h6⟩ := hframe
    refine ⟨(htdo tdo).ordered.forget (by rw [h3]) (Or.inl h1) h2 h5 h6, ?_, ?_, ?_⟩
    · rw [h4, h2]
      exact (htdo tdo).repliesBelow
    · rw [h1]
      intro p bits tms tdi hp
      cases hp
    · -- the return of a shift in progress
      rw [h6]
      cases hk : p.kind with
      | query =>
        intro q hq
        unfold Sys.accept at hq
        rw [hk] at hq
        simp only at hq
        split at hq
        · exact h.returned q hq
        · rcases List.mem_append.mp hq with hq | hq
          · exact h.returned q hq
          · rw [List.mem_singleton.mp hq]
            intro bits tms tdi hk
            cases hk
      | shift bits tms tdi =>
        intro q hq
        unfold Sys.accept at hq
        rw [hk] at hq
        simp only at hq
        rcases List.mem_append.mp hq with hq | hq
        · exact h.returned q hq
        · have hcur := h.current p bits tms tdi hp hk
          rw [hk] at hst
          obtain ⟨hc, e, hel, hec, hb, ht⟩ := hcur.accepted hmem hj hst
          rw [List.mem_singleton.mp hq]
          intro bits' tms' tdi' hk'
          obtain ⟨rfl, rfl, rfl⟩ := Kind.shift.inj hk'
          exact ⟨hc, e, hel, hec, hb, ht⟩

theorem Faithful.serve (hd : 0 < g.memDepth) (tap : Tap) (h : Faithful s) {m : Packet}
    {ms : List Packet} (hm : s.requests = m :: ms) :
    Faithful ({ s with requests := ms : Sys g }.serve tap m) := by
  refine ⟨h.ordered.serve hd tap hm, fun r hr => ?_, fun p bits tms tdi hp hk => ?_,
    fun r hr => (h.returned r hr).mono fun e he => ?_⟩
  · rcases List.mem_append.mp hr with hr | hr
    · exact h.repliesBelow r hr
    · rw [List.mem_singleton.mp hr]
      exact h.ordered.below m (hm ▸ List.mem_cons_self)
  · have hcur := h.current p bits tms tdi hp hk
    by_cases hc : m.call = p.call
    · exact hcur.serve_own h.ordered hp tap hm hc
    · exact hcur.serve_other h.ordered hp tap hm hc
  · simp only [Sys.serve]
    split_ifs
    · exact List.mem_append_left _ he
    · exact he

theorem Faithful.sendVectors (h : Faithful s) {retry bits : ℕ} {tms tdi : Mem}
    (hw : s.drv.wordSize = g.axisWidth) (h1 : 1 ≤ bits) (h20 : bits ≤ 2 ^ 20)
    (hfresh : Fresh s (newXid s.drv.xid)) :
    Faithful (s.send (s.drv.afterShift bits tms tdi) (.shift bits tms tdi) retry
      (s.drv.shiftMsg bits tms tdi)) := by
  have hdrv : { s.drv with wordSize := g.axisWidth } = s.drv := by rw [← hw]
  have hx : getXid (getHdr (s.drv.shiftMsg bits tms tdi)) = newXid s.drv.xid := by
    have := getXid_shiftMsg (g := g) s.drv tms tdi h1 h20
    rwa [hdrv] at this
  refine ⟨h.ordered.send _ _ _ _, fun r hr => (h.repliesBelow r hr).trans (Nat.lt_succ_self _),
    fun p bits' tms' tdi' hp hk => ?_, h.returned⟩
  obtain rfl := Option.some.inj hp
  obtain ⟨rfl, rfl, rfl⟩ := Kind.shift.inj hk
  refine ⟨hw, h1, h20, ⟨s.drv, by rw [hdrv]⟩, fun r hr _ h0 => ?_, fun m hm hne => ?_,
    fun _ hv => ?_, fun e he hc => ?_, fun r hr hc => ?_⟩
  · simp only [hx]
    exact hfresh.replies r hr h0
  · simp only [hx]
    rcases List.mem_append.mp hm with hm | hm
    · exact hfresh.requests m hm
    · rw [List.mem_singleton.mp hm] at hne
      exact absurd rfl hne
  · simp only [hx]
    exact hfresh.stored hv
  · exact absurd hc (h.ordered.logBelow e he).1.ne
  · exact absurd hc (h.repliesBelow r hr).ne

theorem Faithful.next (hd : 0 < g.memDepth) (tap : Tap) (ev : Event) (h : Faithful s)
    (hev : StartsFresh s ev) : Faithful (s.next tap ev) := by
  have ho := h.ordered.next hd tap ev
  have hstep := s.step tap ev
  generalize s.next tap ev = s' at ho hstep ⊢
  cases hstep with
  | skip => exact h
  | query =>
    refine ⟨ho, fun r hr => (h.repliesBelow r hr).trans (Nat.lt_succ_self _),
      fun p bits tms tdi hp hk => ?_, h.returned⟩
    obtain rfl := Option.some.inj hp
    cases hk
  | sendVectors retry bits tms tdi hidle =>
    obtain ⟨hw, h1, h20, hf⟩ := hev hidle
    exact h.sendVectors hw h1 h20 hf
  | timeout p hw => exact h.again hw
  | receive p r rs hw hr => exact h.receive hw hr
  | lose _ requests replies hreq hrep =>
    exact h.forget ho hreq hrep (Or.inr ⟨rfl, rfl⟩) rfl rfl rfl rfl
  | serve m ms hm => exact h.serve hd tap hm

end Run

/-- In every run whose shifts all start fresh, each shift that returns has taken the reply
to its own request, and hands back the TDO of its own execution. -/
theorem shift_returns_own_tdo (g : Generics) (hd : 0 < g.memDepth) (tap : Tap) (txBuf tdo : Mem)
    (xid : Xid) (fw : Fw g.W) (evs : List Event)
    (hev : EveryStep (Sys.next tap) StartsFresh (Sys.start g txBuf tdo xid fw) evs) :
    let s := (Sys.start g txBuf tdo xid fw).run tap evs
    ∀ r ∈ s.returns, r.Own s.log := by
  have h : Faithful ((Sys.start g txBuf tdo xid fw).run tap evs) :=
    runFrom_invariant (fun s ev hs hev => hs.next hd tap ev hev)
      (Faithful.start txBuf tdo xid fw) hev
  exact h.returned

/-- A target of four-octet words with 16 words of memory whose TCK period has code 1. -/
def slowTarget : Generics := { XvcConn.smallTarget with tckBits := 1 }

/-- A driver process at its start, with zero in `xid_`, and that target after reset. -/
def slowStart : Sys slowTarget :=
  Sys.start slowTarget (fun _ => 0) (fun _ => 0) 0 (Fw.init _)

theorem shift_after_query_returns_own_tdo :
    let evs := [.query 5, .serve, .receive,
      .sendVectors 5 32 (fun _ => 0x5a) (fun _ => 0xc3), .serve, .receive]
    EveryStep (Sys.next fun _ _ tdi => tdi) StartsFresh slowStart evs ∧
      ∀ r ∈ (slowStart.run (fun _ _ tdi => tdi) evs).returns,
        r.Own (slowStart.run (fun _ _ tdi => tdi) evs).log := by
  intro evs
  have hev : EveryStep (Sys.next fun _ _ tdi => tdi) StartsFresh slowStart evs := by
    refine ⟨trivial, trivial, trivial, fun _ => ⟨rfl, by decide, by decide, ?_⟩, trivial, trivial,
      trivial⟩
    exact ⟨nofun, nofun, nofun⟩
  exact ⟨hev, shift_returns_own_tdo slowTarget (by decide) _ _ _ _ _ _ hev⟩

/-- A query is sent twice and answered twice.  The second answer carries the period code 1
where the shift that follows, with ID 1, looks for its ID: the shift returns without
having been executed. -/
theorem stale_query_reply_taken :
    let s := slowStart.run (fun _ _ tdi => tdi) [.query 5, .timeout, .serve, .serve, .receive,
      .sendVectors 5 32 (fun _ => 0x5a) (fun _ => 0xc3), .receive]
    ¬ ∀ r ∈ s.returns, r.Own s.log := by
  intro s h
  have hlen : 1 < s.returns.length := by decide +kernel
  obtain ⟨hcall, -⟩ := h s.returns[1] (List.getElem_mem hlen) 32 _ _ rfl
  have hreply : s.returns[1].reply.call = 0 := rfl
  have hown : s.returns[1].call = 1 := rfl
  omega

end XvcSupport.Protocol
