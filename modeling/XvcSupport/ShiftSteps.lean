import XvcSupport.LocalSteps

namespace XvcSupport.AxisToJtag

open AxisToJtagPkg AxisToJtagCore JtagSerDesCore

variable {g : Generics} {clkDiv2 : ℕ} {tap : Tap} {s : Dev g} {ev : Bool × Bool}
  {fw : Fw g.W} {fs : List (List (BitVec g.W))} {data : BitVec g.W}
  {payload : List (BitVec g.W)}

/-- Only a request with a payload is executed. -/
theorem payload_ne_nil {xid : BitVec 8} {memValid : Bool}
    (h : idle g xid memValid data payload.isEmpty = .execute) :
    payload ≠ [] ∧ checkLen g data = true := by
  revert h
  unfold AxisToJtag.idle
  cases payload with
  | nil => split_ifs <;> simp_all
  | cons w ws => split_ifs <;> simp_all

theorem Executes.reqXfer_eq (h : Executes s fw data payload) :
    s.reqXfer ev.1 = (s.core.sReady && (s.mTdi ev.1).tValid) := by
  simp only [Dev.reqXfer, Dev.sAxisReqLoc, Dev.mTdi, h.ackInput]
  cases s.r.passTdi <;> simp [Bool.and_comm]

theorem AtStart.mAxisReq_eq (h : AtStart s fw fs data payload) :
    s.mAxisReq ev.1 = ⟨s.offer || ev.1, false, data⟩ := by
  rw [s.mAxisReq_beats h.src]
  have hne := (payload_ne_nil h.exec).1
  simp [hne]

theorem AtStart.r_next (h : AtStart s fw fs data payload) :
    (s.cycle clkDiv2 tap ev).r = s.r := by
  simp [Dev.cycle, Reg.next, h.state, Reg.waitStarted, Dev.comb, h.quiet.running, h.mAxisReq_eq]

theorem AtStart.wait (h : AtStart s fw fs data payload) (hx : s.reqXfer ev.1 = false) :
    AtStart (s.cycle clkDiv2 tap ev) fw fs data payload ∧
      (s.cycle clkDiv2 tap ev).core.sReady = true := by
  have hr : (s.cycle clkDiv2 tap ev).r = s.r := h.r_next
  have hq : Quiet (s.cycle clkDiv2 tap ev) fw.hist ∧ (s.cycle clkDiv2 tap ev).core.sReady = true :=
    h.quiet.next (by rw [← h.reqXfer_eq, hx])
  refine ⟨⟨⟨h.exec, ?_, ?_, ?_, ?_, ?_, ?_⟩, ?_, ?_, ?_, ?_, ?_, hq.1, ?_⟩, hq.2⟩
  all_goals try rw [hr]
  · exact h.tLast
  · exact h.tData
  · exact h.ackInput
  · exact h.ridx
  · exact h.memValid
  · exact h.xid
  · exact h.state
  · exact h.reply
  · exact h.passTdo
  · exact h.passTdi
  · exact h.widx
  · rw [← h.src]
    simp [Dev.cycle, hx]

theorem AtStart.go (h : AtStart s fw fs data payload) (hx : s.reqXfer ev.1 = true) :
    AtBusy clkDiv2 tap (s.cycle clkDiv2 tap ev) fw fs data payload (.getTms 0) 0 false
      (.idle 0 false) := by
  have hr : (s.cycle clkDiv2 tap ev).r = s.r := h.r_next
  have hne := (payload_ne_nil h.exec).1
  have hpos : 0 < payload.length := List.length_pos_iff.mpr hne
  have hx' := hx
  rw [h.reqXfer_eq, Bool.and_eq_true] at hx'
  have hm : s.mTdi ev.1 = ⟨(s.mTdi ev.1).tValid, false, data⟩ := by
    simp [Dev.mTdi, h.mAxisReq_eq]
  have hj : Joint (taskOf fw data payload) tap clkDiv2 (.getTms 0) 0 false (.idle 0 false)
      (s.cycle clkDiv2 tap ev).core (s.cycle clkDiv2 tap ev).ser (s.cycle clkDiv2 tap ev).hist :=
    Quiet.start h.quiet hx'.1 hx'.2 (by rw [hm]) (by rw [hm]; rfl) hpos
  refine ⟨⟨h.exec, ?_, ?_, ?_, ?_, ?_, ?_⟩, ?_, ?_, hj, by simp, ?_⟩
  all_goals try rw [hr]
  · exact h.tLast
  · exact h.tData
  · exact h.ackInput
  · exact h.ridx
  · exact h.memValid
  · exact h.xid
  · exact Or.inl ⟨h.state, h.reply, h.passTdo, Or.inl rfl⟩
  · rw [h.passTdi]
    simp [Phase.accepted, hpos]
  · have hsrc : (s.cycle clkDiv2 tap ev).src = _ := Dev.src_next h.src (by simp)
    rw [hsrc, hx]
    simp [remNext, Phase.accepted]

section Busy

variable {ph : Phase} {o : ℕ} {full : Bool} {pos : Pos}

theorem AtBusy.mAxisReq_eq (h : AtBusy clkDiv2 tap s fw fs data payload ph o full pos)
    (ha : ph.accepted (taskOf fw data payload) < payload.length) :
    s.mAxisReq ev.1 = ⟨s.offer || ev.1,
      decide (ph.accepted (taskOf fw data payload) + 1 = payload.length),
      payload.getD (ph.accepted (taskOf fw data payload)) 0⟩ := by
  have hsrc := h.src
  rw [beats_drop ha] at hsrc
  simp [Dev.mAxisReq, hsrc]

theorem AtBusy.feeds (h : AtBusy clkDiv2 tap s fw fs data payload ph o full pos) :
    Feeds (taskOf fw data payload) (ph.accepted (taskOf fw data payload)) (s.mTdi ev.1) := by
  intro hv
  have ha : ph.accepted (taskOf fw data payload) < payload.length := by
    simp only [Dev.mTdi, Bool.and_eq_true, h.passTdi, decide_eq_true_iff] at hv
    exact hv.2
  refine ⟨ha, ?_, ?_⟩
  · simp only [Dev.mTdi, h.mAxisReq_eq ha]
    rfl
  · simp only [Dev.mTdi, h.mAxisReq_eq ha]
    rfl

theorem AtBusy.xfer_lt (h : AtBusy clkDiv2 tap s fw fs data payload ph o full pos)
    (hx : s.reqXfer ev.1 = true) : ph.accepted (taskOf fw data payload) < payload.length := by
  rw [h.reqXfer_eq, Bool.and_eq_true] at hx
  exact (h.feeds hx.2).1

theorem AtBusy.passTdi_next (h : AtBusy clkDiv2 tap s fw fs data payload ph o full pos) :
    (s.r.passTdi && !(s.comb ev.1 ev.2).lastTdi) =
      decide (ph.accepted (taskOf fw data payload) + (s.reqXfer ev.1).toNat < payload.length) := by
  simp only [Dev.comb, h.passTdi]
  cases hx : s.reqXfer ev.1 with
  | false => simp
  | true =>
    have ha := h.xfer_lt hx
    simp only [h.mAxisReq_eq ha, ha, decide_true, Bool.true_and, Bool.toNat_true]
    rw [Bool.eq_iff_iff]
    simp
    omega

theorem AtBusy.joint_next (h : AtBusy clkDiv2 tap s fw fs data payload ph o full pos)
    (hD : 0 < clkDiv2)
    (hfine : ph.Fine (taskOf fw data payload) o full (s.mTdi ev.1).tValid (s.sTdo ev.2)) :
    Joint (taskOf fw data payload) tap clkDiv2
      (ph.next (taskOf fw data payload) o full (s.mTdi ev.1).tValid (s.sTdo ev.2) s.ser.iReady
        s.ser.oValid)
      (o + (takesOver full (s.sTdo ev.2 && ph.passes) s.ser.oValid).toNat)
      (fills full (s.sTdo ev.2 && ph.passes) s.ser.oValid)
      (pos.next (taskOf fw data payload).job clkDiv2 s.core.tdiValid
        (s.core.tdoReady (s.sTdo ev.2)))
      (s.cycle clkDiv2 tap ev).core (s.cycle clkDiv2 tap ev).ser (s.cycle clkDiv2 tap ev).hist :=
  h.joint.next g.W_pos hD h.work h.feeds hfine

theorem AtBusy.accepted_next (h : AtBusy clkDiv2 tap s fw fs data payload ph o full pos)
    {iReady oValid : Bool}
    (hfine : ph.Fine (taskOf fw data payload) o full (s.mTdi ev.1).tValid (s.sTdo ev.2))
    (hne : ph.next (taskOf fw data payload) o full (s.mTdi ev.1).tValid (s.sTdo ev.2) iReady
      oValid ≠ .idle) :
    (ph.next (taskOf fw data payload) o full (s.mTdi ev.1).tValid (s.sTdo ev.2) iReady
      oValid).accepted (taskOf fw data payload) =
        ph.accepted (taskOf fw data payload) + (s.reqXfer ev.1).toNat := by
  rw [h.joint.core.accepted_next g.W_pos h.work h.feeds hfine hne, h.reqXfer_eq, Bool.and_comm]

theorem AtBusy.src_next (h : AtBusy clkDiv2 tap s fw fs data payload ph o full pos) :
    (s.cycle clkDiv2 tap ev).src =
      beats (payload.drop (ph.accepted (taskOf fw data payload) + (s.reqXfer ev.1).toNat)) ++
        fs.flatMap beats := by
  have hx : s.reqXfer ev.1 = true →
      payload.drop (ph.accepted (taskOf fw data payload)) ≠ [] := by
    intro hx
    have := h.xfer_lt hx
    simpa using this
  have hsrc : (s.cycle clkDiv2 tap ev).src = _ := Dev.src_next h.src hx
  rw [hsrc, remNext]
  cases hxv : s.reqXfer ev.1 <;> simp

/-- A core that runs goes on running until the last word is out. -/
theorem runs_next {t : Task g.W} {valid rdy iReady oValid : Bool} (hr : ph.runs = true)
    (hne : ph.next t o full valid rdy iReady oValid ≠ .idle) :
    (ph.next t o full valid rdy iReady oValid).runs = true := by
  cases ph with
  | idle => simp [Phase.runs] at hr
  | getTms c =>
    simp only [Phase.next] at hne ⊢
    split_ifs at hne ⊢ with h1 h2 h3 h4
    · exact absurd rfl hne
    · rfl
    · rfl
    · rfl
    · exact hr
  | _ =>
    simp only [Phase.next] at hne ⊢
    try split_ifs at hne ⊢
    all_goals first | rfl | exact absurd rfl hne

attribute [ext] Axis Reg

theorem AtBusy.r_next (h : AtBusy clkDiv2 tap s fw fs data payload ph o full pos)
    (hlast : s.tdoXfer ev.2 = true → s.core.tLast = false)
    (hearly : ph = .getTms 0 → s.reqXfer ev.1 = true → payload.length ≠ 1) :
    (s.cycle clkDiv2 tap ev).r = { s.r with
      state :=
        if s.r.state = .waitStarted then if ph.runs then .waitHdrReady else .waitStarted
        else if s.r.state = .waitHdrReady then
          if s.locConsumed ev.2 then .waitStopped else .waitHdrReady
        else .waitStopped
      replyData := { s.r.replyData with tValid :=
        if s.r.state = .waitStarted then ph.runs
        else s.r.replyData.tValid && !s.locConsumed ev.2 }
      passTdo := s.r.passTdo || s.locConsumed ev.2
      passTdi := decide
        (ph.accepted (taskOf fw data payload) + (s.reqXfer ev.1).toNat < payload.length)
      widx := if 0 < g.memDepth ∧ s.tdoXfer ev.2 then incAddr g s.r.widx else s.r.widx } := by
  have hpass : (s.r.passTdi && !(s.comb ev.1 ev.2).lastTdi) = _ := h.passTdi_next
  have hrun : (s.comb ev.1 ev.2).coreRunning = ph.runs := h.joint.core.running_eq
  have hloc : (s.comb ev.1 ev.2).locConsumed = s.locConsumed ev.2 := rfl
  have hnext : (s.cycle clkDiv2 tap ev).r = s.r.next (s.comb ev.1 ev.2) s.memOut := rfl
  have hquiet : s.r.passTdo = false → s.tdoXfer ev.2 = false := by
    intro hp
    simp [Dev.tdoXfer, Dev.sTdo, hp]
  rcases h.state with ⟨hst, hv, hp, hph⟩ | ⟨hst, hv, hp, hph⟩ | ⟨hst, hv, hp, hph⟩
  · have hno : s.locConsumed ev.2 = false := by simp [Dev.locConsumed, hv]
    rw [hnext]
    rcases hph with rfl | rfl
    · have hreq : (s.comb ev.1 ev.2).lastReq = false := by
        cases hx : s.reqXfer ev.1 with
        | false => simp [Dev.comb, hx]
        | true =>
          have hone := hearly rfl hx
          simp only [Dev.comb, h.mAxisReq_eq (h.xfer_lt hx), Phase.accepted]
          simp
          omega
      have htdi : (s.comb ev.1 ev.2).lastTdi = false := by
        have : (s.comb ev.1 ev.2).lastTdi = (s.r.passTdi && (s.comb ev.1 ev.2).lastReq) := rfl
        rw [this, hreq, Bool.and_false]
      rw [htdi, Bool.not_false, Bool.and_true] at hpass
      ext <;> simp [Reg.next, hst, Reg.waitStarted, hrun, hreq, hno, hquiet hp, ← hpass, hv,
        Phase.runs]
    · ext <;> simp [Reg.next, hst, Reg.waitStarted, hrun, hno, hquiet hp, hpass, Phase.runs]
  · rw [hnext]
    cases hlc : s.locConsumed ev.2 <;>
      ext <;> simp [Reg.next, hst, Reg.waitHdrReady, hloc, hlc, hquiet hp, hpass, hv]
  · rw [hnext]
    have hno : s.locConsumed ev.2 = false := by simp [Dev.locConsumed, hp]
    have hltdo : (s.comb ev.1 ev.2).lastTdo = false := by
      cases hx : s.tdoXfer ev.2 with
      | false => simp [Dev.comb, hx]
      | true => simp [Dev.comb, AxisToJtagCore.Reg.mAxisTdo, hlast hx]
    have hwen : (s.comb ev.1 ev.2).tdoWen = s.tdoXfer ev.2 := by simp [Dev.comb, hp]
    have hmv : s.tdoXfer ev.2 = true → (s.comb ev.1 ev.2).mTdo.tLast = false := by
      intro hx
      simp [Dev.comb, AxisToJtagCore.Reg.mAxisTdo, hlast hx]
    by_cases hw : 0 < g.memDepth ∧ s.tdoXfer ev.2 = true
    · ext <;> simp [Reg.next, hst, Reg.waitStopped, hpass, hltdo, hwen, hw.1, hw.2, hmv hw.2, hno,
        hv, hp]
    · ext <;> simp [Reg.next, hst, Reg.waitStopped, hpass, hltdo, hwen, hw, hno, hv, hp]

/-- A word that goes out before the core has finished does not carry `TLAST`. -/
theorem AtBusy.tLast_of_xfer (h : AtBusy clkDiv2 tap s fw fs data payload ph o full pos)
    (hfin : ph = .final → s.sTdo ev.2 = false) (hx : s.tdoXfer ev.2 = true) :
    s.core.tLast = false := by
  rw [Dev.tdoXfer, h.joint.core.tValid_eq, Bool.and_eq_true, Bool.and_eq_true] at hx
  obtain ⟨hrdy, hf, hp⟩ := hx
  by_cases hd : ph = .doomed
  · subst hd
    have hcore := h.joint.core
    generalize s.core = r at hcore
    cases hcore
    rfl
  · have hm := h.joint.core.mAxisTdo_eq hf hp hd
    have htl : s.core.tLast = s.core.mAxisTdo.tLast := rfl
    rw [htl, hm]
    simp only [decide_eq_false_iff_not]
    intro hph
    rw [hfin hph] at hrdy
    exact absurd hrdy (by simp)

theorem AtBusy.no_end (h : AtBusy clkDiv2 tap s fw fs data payload ph o full pos)
    {iReady oValid : Bool} (hne : ph.next (taskOf fw data payload) o full (s.mTdi ev.1).tValid
      (s.sTdo ev.2) iReady oValid ≠ .idle) :
    (s.tdoXfer ev.2 = true → s.core.tLast = false) ∧
      (ph = .getTms 0 → s.reqXfer ev.1 = true → payload.length ≠ 1) := by
  constructor
  · refine h.tLast_of_xfer ?_
    rintro rfl
    by_contra hcon
    exact hne (by simp [Phase.next, hcon])
  · rintro rfl hx hone
    rw [h.reqXfer_eq, Bool.and_eq_true] at hx
    exact hne (by simp [Phase.next, hx.2, taskOf, hone])

theorem AtBusy.next (h : AtBusy clkDiv2 tap s fw fs data payload ph o full pos)
    (hD : 0 < clkDiv2)
    (hfine : ph.Fine (taskOf fw data payload) o full (s.mTdi ev.1).tValid (s.sTdo ev.2))
    (hne : ph.next (taskOf fw data payload) o full (s.mTdi ev.1).tValid (s.sTdo ev.2) s.ser.iReady
      s.ser.oValid ≠ .idle) :
    AtBusy clkDiv2 tap (s.cycle clkDiv2 tap ev) fw fs data payload
      (ph.next (taskOf fw data payload) o full (s.mTdi ev.1).tValid (s.sTdo ev.2) s.ser.iReady
        s.ser.oValid)
      (o + (takesOver full (s.sTdo ev.2 && ph.passes) s.ser.oValid).toNat)
      (fills full (s.sTdo ev.2 && ph.passes) s.ser.oValid)
      (pos.next (taskOf fw data payload).job clkDiv2 s.core.tdiValid
        (s.core.tdoReady (s.sTdo ev.2))) := by
  have hr := h.r_next (h.no_end hne).1 (h.no_end hne).2
  have hacc := h.accepted_next hfine hne
  refine ⟨⟨h.exec, ?_, ?_, ?_, ?_, ?_, ?_⟩, ?_, ?_, h.joint_next hD hfine, hne, ?_⟩
  · rw [hr]; exact h.tLast
  · rw [hr]; exact h.tData
  · rw [hr]; exact h.ackInput
  · rw [hr]; exact h.ridx
  · rw [hr]; exact h.memValid
  · rw [hr]; exact h.xid
  · rw [hr]
    rcases h.state with ⟨hst, hv, hp, hph⟩ | ⟨hst, hv, hp, hph⟩ | ⟨hst, hv, hp, hph⟩
    · have hno : s.locConsumed ev.2 = false := by simp [Dev.locConsumed, hv]
      rcases hph with rfl | rfl
      · refine Or.inl ⟨by simp [hst, Phase.runs], by simp [hst, Phase.runs], by simp [hp, hno], ?_⟩
        simp only [Phase.next] at hne ⊢
        split_ifs at hne ⊢ <;> simp_all
      · have hruns := runs_next (by rfl) hne
        exact Or.inr (Or.inl ⟨by simp [hst, Phase.runs], by simp [hst, Phase.runs],
          by simp [hp, hno], hruns⟩)
    · have hruns := runs_next hph hne
      cases hlc : s.locConsumed ev.2 with
      | false => exact Or.inr (Or.inl ⟨by simp [hst], by simp [hst, hv], by simp [hp], hruns⟩)
      | true => exact Or.inr (Or.inr ⟨by simp [hst], by simp [hst], by simp, hruns⟩)
    · have hruns := runs_next hph hne
      exact Or.inr (Or.inr ⟨by simp [hst], by simp [hst, hv], by simp [hp], hruns⟩)
  · rw [hr, hacc]
  · rw [hacc]
    exact h.src_next

end Busy

section Words

variable {ph : Phase} {o : ℕ} {full : Bool} {pos : Pos}

theorem serve_execute (hex : idle g fw.xid fw.memValid data payload.isEmpty = .execute)
    (hlen : payload.length ≠ 1) :
    serve g tap fw (data :: payload) =
      (data :: shiftTdo g tap fw.hist data payload,
        { xid := getXid data
          memValid := decide (0 < g.memDepth)
          mem := shiftTdo g tap fw.hist data payload
          hist := fw.hist ++ edgesOf (shiftBits g data payload) }) := by
  simp only [serve, hex, if_neg hlen]

theorem serve_early (hex : idle g fw.xid fw.memValid data payload.isEmpty = .execute)
    (hlen : payload.length = 1) :
    serve g tap fw (data :: payload) =
      ([setErr errTruncated data], { fw with xid := getXid data, memValid := false }) := by
  simp only [serve, hex, if_pos hlen]

/-- A word in the register has been taken over before. -/
theorem one_le_of_full {t : Task g.W} {r : AxisToJtagCore.Reg g.W}
    (hr : CoreAt t tap ph o full r) (hf : full = true) : 1 ≤ o := by
  subst hf
  cases hr with
  | getTms _ _ _ _ _ htdo => exact (htdo rfl).1
  | getTdi _ _ _ _ htdo => exact (htdo rfl).1
  | shift _ _ _ _ _ htdo => exact (htdo rfl).1
  | drain _ _ _ htdo => exact (htdo rfl).1
  | align hpos => exact hpos
  | discard hpos => exact hpos
  | final hpos => exact hpos
  | abort _ _ _ htdo => exact (htdo rfl).1
  | doomed hab => exact hab.1

theorem emitted_next {rdy oValid : Bool} (ho : full = true → 1 ≤ o) :
    o + (takesOver full rdy oValid).toNat - (fills full rdy oValid).toNat =
      o - full.toNat + (full && rdy).toNat := by
  revert ho
  cases full <;> cases rdy <;> cases oValid <;> simp [takesOver, fills]
  all_goals omega

theorem AtBusy.tdoXfer_eq (h : AtBusy clkDiv2 tap s fw fs data payload ph o full pos) :
    s.tdoXfer ev.2 = (full && (s.sTdo ev.2 && ph.passes)) := by
  rw [Dev.tdoXfer, h.joint.core.tValid_eq]
  cases full <;> simp

theorem AtBusy.word_of_xfer (h : AtBusy clkDiv2 tap s fw fs data payload ph o full pos)
    (hd : ph ≠ .doomed)
    (hfine : ph.Fine (taskOf fw data payload) o full (s.mTdi ev.1).tValid (s.sTdo ev.2))
    (hx : s.tdoXfer ev.2 = true) :
    o - full.toNat < (taskOf fw data payload).count ∧
      s.core.tdo = (taskOf fw data payload).tdoWord tap (o - full.toNat) ∧
      s.core.tLast = decide (o - full.toNat + 1 = (taskOf fw data payload).count) := by
  rw [h.tdoXfer_eq, Bool.and_eq_true, Bool.and_eq_true] at hx
  obtain ⟨hf, hrdy, hp⟩ := hx
  have hone := one_le_of_full h.joint.core hf
  have hm := h.joint.core.mAxisTdo_eq hf hp hd
  have htd : s.core.tdo = s.core.mAxisTdo.tData := rfl
  have htl : s.core.tLast = s.core.mAxisTdo.tLast := rfl
  rw [hrdy] at hfine
  have hlt := h.joint.core.lt_count g.W_pos hf hp hd h.joint.le_handed hfine
  have hfinal : ph = .final → o = (taskOf fw data payload).count := by
    rintro rfl
    exact h.joint.core.final_eq.1
  rw [htd, htl, hm, hf, Bool.toNat_true]
  refine ⟨?_, rfl, ?_⟩
  · by_cases hph : ph = .final
    · have := hfinal hph
      omega
    · have := hlt hph
      omega
  · by_cases hph : ph = .final
    · have := hfinal hph
      rw [decide_eq_true hph, eq_comm, decide_eq_true_iff]
      omega
    · have := hlt hph
      rw [decide_eq_false hph, eq_comm, decide_eq_false_iff_not]
      omega

theorem AtBusy.loads_eq (h : AtBusy clkDiv2 tap s fw fs data payload ph o full pos)
    (hd : ph ≠ .doomed)
    (hfine : ph.Fine (taskOf fw data payload) o full (s.mTdi ev.1).tValid (s.sTdo ev.2)) :
    s.loads ev.2 =
      if s.r.passTdo then
        if s.tdoXfer ev.2 then
          [((taskOf fw data payload).tdoWord tap (o - full.toNat),
            decide (o - full.toNat + 1 = (taskOf fw data payload).count))]
        else []
      else if s.locConsumed ev.2 then [(data, false)] else [] := by
  rw [Dev.loads]
  cases hp : s.r.passTdo with
  | true =>
    cases hx : s.tdoXfer ev.2 with
    | true =>
      obtain ⟨-, htd, htl⟩ := h.word_of_xfer hd hfine hx
      have hx' := hx
      simp only [Dev.tdoXfer, Dev.sTdo, hp, Bool.true_and, Bool.and_eq_true] at hx'
      have hm1 : s.core.mAxisTdo.tData = s.core.tdo := rfl
      have hm2 : s.core.mAxisTdo.tLast = s.core.tLast := rfl
      simp [hx'.1, offered, hx'.2, hm1, hm2, htd, htl]
    | false =>
      simp only [Dev.tdoXfer, Dev.sTdo, hp, Bool.true_and, Bool.and_eq_false_iff] at hx
      rcases hx with hx | hx <;> simp [hx, offered]
  | false =>
    cases hl : s.locConsumed ev.2 with
    | true =>
      simp only [Dev.locConsumed, hp, Bool.not_false, Bool.true_and, Bool.and_eq_true] at hl
      simp [hl.1, offered, hl.2, h.tData, h.tLast]
    | false =>
      simp only [Dev.locConsumed, hp, Bool.not_false, Bool.true_and, Bool.and_eq_false_iff] at hl
      rcases hl with hl | hl <;> simp [hl, offered]

/-- A reply of at least one TDO word is never a single word. -/
theorem beats_shift (hpos : 0 < (taskOf fw data payload).count) :
    beats (data :: shiftTdo g tap fw.hist data payload) =
      (data, false) :: beats ((shiftTdo g tap fw.hist data payload).drop 0) := by
  have hne : shiftTdo g tap fw.hist data payload ≠ [] := by
    rw [← List.length_pos_iff, shiftTdo_length]
    exact hpos
  simp [hne]

theorem two_le_of_count (hpos : 0 < (taskOf fw data payload).count) : 2 ≤ payload.length := by
  have := Task.two_count_le (t := taskOf fw data payload)
  simp only [taskOf] at this hpos
  omega

theorem AtBusy.due_next (h : AtBusy clkDiv2 tap s fw fs data payload ph o full pos)
    (hd : ph ≠ .doomed) (hnone : s.r.passTdo = false → o = full.toNat)
    (hfine : ph.Fine (taskOf fw data payload) o full (s.mTdi ev.1).tValid (s.sTdo ev.2))
    {s' : Dev g} (hpass : s'.r.passTdo = (s.r.passTdo || s.locConsumed ev.2)) :
    shiftDue tap s fw data payload (o - full.toNat) =
      s.loads ev.2 ++ shiftDue tap s' fw data payload
        (o + (takesOver full (s.sTdo ev.2 && ph.passes) s.ser.oValid).toNat -
          (fills full (s.sTdo ev.2 && ph.passes) s.ser.oValid).toNat) := by
  rw [emitted_next (one_le_of_full h.joint.core), ← h.tdoXfer_eq, h.loads_eq hd hfine, shiftDue,
    shiftDue, hpass]
  cases hp : s.r.passTdo with
  | true =>
    cases hx : s.tdoXfer ev.2 with
    | true =>
      obtain ⟨hlt, -, -⟩ := h.word_of_xfer hd hfine hx
      have hlen := hlt
      rw [← shiftTdo_length tap] at hlen
      rw [beats_drop hlen, shiftTdo_getD hlt, shiftTdo_length]
      simp
    | false => simp
  | false =>
    have hx : s.tdoXfer ev.2 = false := by simp [Dev.tdoXfer, Dev.sTdo, hp]
    cases hl : s.locConsumed ev.2 with
    | true =>
      -- the header goes only when the core has started
      have hruns : ph.runs = true := by
        rcases h.state with ⟨-, hv, -⟩ | ⟨-, -, -, hr⟩ | ⟨-, hv, -⟩
        · simp [Dev.locConsumed, hv] at hl
        · exact hr
        · simp [Dev.locConsumed, hv] at hl
      have hpos := h.joint.core.count_pos g.W_pos hruns
      have h2 := two_le_of_count hpos
      rw [serve_execute h.exec (by omega), beats_shift hpos, hnone hp, hx]
      simp
    | false => simp

theorem AtBusy.saved_next (h : AtBusy clkDiv2 tap s fw fs data payload ph o full pos)
    (hd : ph ≠ .doomed) (hin : s.InRange ev)
    (hfine : ph.Fine (taskOf fw data payload) o full (s.mTdi ev.1).tValid (s.sTdo ev.2))
    (hsave : Saved tap s fw data payload (o - full.toNat)) {s' : Dev g}
    (hw : s'.r.widx = if 0 < g.memDepth ∧ s.tdoXfer ev.2 then incAddr g s.r.widx else s.r.widx)
    (hm : s'.bufMem = s.writeMem ev.2) :
    Saved tap s' fw data payload
      (o + (takesOver full (s.sTdo ev.2 && ph.passes) s.ser.oValid).toNat -
        (fills full (s.sTdo ev.2 && ph.passes) s.ser.oValid).toNat) := by
  intro hdepth
  obtain ⟨hwidx, hmem⟩ := hsave hdepth
  rw [emitted_next (one_le_of_full h.joint.core), ← h.tdoXfer_eq, hw, hm, Dev.writeMem, hwidx]
  cases hx : s.tdoXfer ev.2 with
  | false => simpa using hmem
  | true =>
    obtain ⟨hlt, htd, -⟩ := h.word_of_xfer hd hfine hx
    have hp : s.r.passTdo = true := by
      simp only [Dev.tdoXfer, Dev.sTdo, Bool.and_eq_true] at hx
      exact hx.1.1
    have hle : o - full.toNat < g.memDepth := by
      rw [← hwidx]
      exact hin hdepth (by simp [Dev.comb, hx, hp])
    rw [if_pos ⟨hdepth, rfl⟩, incAddr_of_lt hle, hp, decide_eq_true hle]
    refine ⟨rfl, fun i hi => ?_⟩
    rw [Bool.toNat_true] at hi
    by_cases hie : i = o - full.toNat
    · subst hie
      simp [htd]
    · rw [Bool.true_and, Bool.true_and, if_pos rfl, Function.update_of_ne hie]
      exact hmem i (by omega)

end Words

section Finish

variable {ph : Phase} {o : ℕ} {full : Bool} {pos : Pos}

theorem AtBusy.last_word (h : AtBusy clkDiv2 tap s fw fs data payload .final o full pos)
    (hrdy : s.sTdo ev.2 = true) :
    s.tdoXfer ev.2 = true ∧ s.core.tLast = true ∧ s.r.state = .waitStopped ∧
      s.r.replyData.tValid = false ∧ s.r.passTdo = true ∧ s.r.passTdi = false := by
  obtain ⟨ho, hful⟩ := h.joint.core.final_eq
  have hpos := h.joint.core.count_pos g.W_pos rfl
  have hx : s.tdoXfer ev.2 = true := by
    rw [h.tdoXfer_eq, hful, hrdy]
    rfl
  obtain ⟨-, -, htl⟩ := h.word_of_xfer (by simp) trivial hx
  have htl' : s.core.tLast = true := by
    rw [htl, hful, Bool.toNat_true, decide_eq_true_iff]
    omega
  have hp : s.r.passTdo = true := by
    simp only [Dev.sTdo, Bool.and_eq_true] at hrdy
    exact hrdy.1
  have htdi : s.r.passTdi = false := by
    rw [h.passTdi, decide_eq_false_iff_not]
    simp [Phase.accepted, taskOf]
  rcases h.state with ⟨-, -, hp', -⟩ | ⟨-, -, hp', -⟩ | ⟨hst, hv, -, -⟩
  · exact absurd (hp.symm.trans hp') (by simp)
  · exact absurd (hp.symm.trans hp') (by simp)
  · exact ⟨hx, htl', hst, hv, hp, htdi⟩

theorem AtBusy.finish_r (h : AtBusy clkDiv2 tap s fw fs data payload .final o full pos)
    (hrdy : s.sTdo ev.2 = true) :
    (s.cycle clkDiv2 tap ev).r = { s.r with
      state := .idle
      passTdo := false
      passTdi := false
      memValid := decide (0 < g.memDepth)
      widx := if 0 < g.memDepth then incAddr g s.r.widx else s.r.widx } := by
  obtain ⟨hx, htl, hst, -, hp, htdi⟩ := h.last_word hrdy
  have hnext : (s.cycle clkDiv2 tap ev).r = s.r.next (s.comb ev.1 ev.2) s.memOut := rfl
  have hltdo : (s.comb ev.1 ev.2).lastTdo = true := by
    simp [Dev.comb, hx, AxisToJtagCore.Reg.mAxisTdo, htl]
  have hwen : (s.comb ev.1 ev.2).tdoWen = true := by simp [Dev.comb, hx, hp]
  have hml : (s.comb ev.1 ev.2).mTdo.tLast = true := htl
  rw [hnext]
  by_cases hdep : 0 < g.memDepth
  · ext <;> simp [Reg.next, hst, Reg.waitStopped, htdi, hltdo, hwen, hml, hdep]
  · ext <;> simp [Reg.next, hst, Reg.waitStopped, htdi, hltdo, hwen, hdep, h.memValid]

theorem AtBusy.finish (h : AtBusy clkDiv2 tap s fw fs data payload .final o full pos)
    (hD : 0 < clkDiv2) (hin : s.InRange ev)
    (hsave : Saved tap s fw data payload (o - full.toNat)) (hrdy : s.sTdo ev.2 = true) :
    AtIdle (s.cycle clkDiv2 tap ev) (serve g tap fw (data :: payload)).2 fs := by
  obtain ⟨ho, hful⟩ := h.joint.core.final_eq
  have hpos := h.joint.core.count_pos g.W_pos rfl
  have h2 := two_le_of_count hpos
  obtain ⟨hx, -, -, hv, hp, htdi⟩ := h.last_word hrdy
  have hr := h.finish_r hrdy
  have hov : s.ser.oValid = false := h.joint.offers.oValid_eq_false ho.ge
  have hfine : Phase.final.Fine (taskOf fw data payload) o full (s.mTdi ev.1).tValid
    (s.sTdo ev.2) := trivial
  have hsave' : Saved tap (s.cycle clkDiv2 tap ev) fw data payload _ :=
    h.saved_next (by simp) hin hfine hsave (by rw [hr, hx]; simp) rfl
  have hj : Joint _ _ _ _ _ _ _ (s.cycle clkDiv2 tap ev).core (s.cycle clkDiv2 tap ev).ser
      (s.cycle clkDiv2 tap ev).hist := h.joint_next hD hfine
  rw [hov, takesOver, Bool.false_and, Bool.toNat_false, Nat.add_zero] at hj hsave'
  simp only [Phase.next, hrdy, if_true] at hj
  have hq : Quiet (s.cycle clkDiv2 tap ev) _ := quiet_of_joint hj ho
  rw [taskOf_hist] at hq
  have hlen : (shiftTdo g tap fw.hist data payload).length = (taskOf fw data payload).count :=
    shiftTdo_length tap
  have hfill : fills full (s.sTdo ev.2 && Phase.final.passes) false = false := by
    rw [hful, hrdy]
    rfl
  rw [hrdy] at hfill
  rw [hrdy, hfill, ho, Bool.toNat_false, Nat.sub_zero] at hsave'
  rw [serve_execute h.exec (by omega)]
  refine ⟨?_, ?_, ?_, ?_, ?_, ?_, hq, ⟨?_, ?_, ?_, ?_, ?_, ?_⟩, ?_⟩
  · rw [hr]
  · rw [hr]; exact hv
  · rw [hr]; exact h.ackInput
  · rw [hr]
  · rw [hr]
  · rw [hr]; exact h.ridx
  · rw [hr]; exact h.xid
  · rw [hr]
  · intro hmv
    rw [hlen]
    exact (hsave' (by simpa using hmv)).1
  · intro _
    rw [hlen]
    exact hpos
  · intro hmv
    rw [hlen]
    have hdep : 0 < g.memDepth := by simpa using hmv
    -- the last word has been written at an address below the depth
    have hlast := hin hdep (by simp [Dev.comb, hx, hp])
    rw [(hsave hdep).1, ho, hful, Bool.toNat_true] at hlast
    omega
  · intro hmv i hi
    have hi' : i < (taskOf fw data payload).count := by
      rw [← hlen]
      exact hi
    rw [(hsave' (by simpa using hmv)).2 i hi', shiftTdo_getD hi']
  · have hsrc : (s.cycle clkDiv2 tap ev).src = _ := h.src_next
    have hxr : s.reqXfer ev.1 = false := by
      rw [h.reqXfer_eq, Dev.mTdi, htdi]
      simp
    rw [hsrc, hxr]
    simp [Phase.accepted, taskOf]

/-- `TLAST` on the first TMS word: the core gives up before the reply has started. -/
theorem AtBusy.early (h : AtBusy clkDiv2 tap s fw fs data payload (.getTms 0) o full pos)
    (hD : 0 < clkDiv2) (hlen : payload.length = 1) (hx : s.reqXfer ev.1 = true) :
    AtSendRep (s.cycle clkDiv2 tap ev) (serve g tap fw (data :: payload)).2 fs
        (setErr errTruncated data) true [] ∧ s.loads ev.2 = [] ∧ s.r.passTdo = false := by
  obtain ⟨hst, hv, hp⟩ : s.r.state = .waitStarted ∧ s.r.replyData.tValid = false ∧
      s.r.passTdo = false := by
    rcases h.state with ⟨hst, hv, hp, -⟩ | ⟨-, -, -, hr⟩ | ⟨-, -, -, hr⟩
    · exact ⟨hst, hv, hp⟩
    · simp [Phase.runs] at hr
    · simp [Phase.runs] at hr
  have hrun : (s.comb ev.1 ev.2).coreRunning = false := h.joint.core.running_eq
  have hreq : (s.comb ev.1 ev.2).lastReq = true := by
    have ha := h.xfer_lt hx
    simp only [Dev.comb, hx, h.mAxisReq_eq ha, Phase.accepted]
    simp [hlen]
  have hnext : (s.cycle clkDiv2 tap ev).r = s.r.next (s.comb ev.1 ev.2) s.memOut := rfl
  have hr : (s.cycle clkDiv2 tap ev).r = { s.r with
      state := .sendRep
      replyData := ⟨true, true, setErr errTruncated data⟩
      passTdi := false
      tLastSeen := true } := by
    rw [hnext]
    simp [Reg.next, hst, Reg.waitStarted, hrun, hreq, sendHeaderNow, h.tData]
  have hxv := hx
  rw [h.reqXfer_eq, Bool.and_eq_true] at hxv
  have hov : s.ser.oValid = false := h.joint.offers.oValid_eq_false (Nat.zero_le _)
  have hoz : o = 0 := by
    have := h.joint.le_handed
    simp only [Phase.handed] at this
    omega
  have hcount : (taskOf fw data payload).count = 0 := by
    have := Task.two_count_le (t := taskOf fw data payload)
    simp only [taskOf] at this ⊢
    omega
  have hfine : (Phase.getTms 0).Fine (taskOf fw data payload) o full (s.mTdi ev.1).tValid
    (s.sTdo ev.2) := trivial
  have hj : Joint _ _ _ _ _ _ _ (s.cycle clkDiv2 tap ev).core (s.cycle clkDiv2 tap ev).ser
      (s.cycle clkDiv2 tap ev).hist := h.joint_next hD hfine
  rw [hov, takesOver, Bool.false_and, Bool.toNat_false, Nat.add_zero] at hj
  have hlen' : (taskOf fw data payload).payload.length = 2 * 0 + 1 := hlen
  simp only [Phase.next, hxv.2, if_true, hlen'] at hj
  have hq : Quiet (s.cycle clkDiv2 tap ev) _ := quiet_of_joint hj (by rw [hoz, hcount])
  have hhist : (taskOf fw data payload).job.histOf (taskOf fw data payload).count = fw.hist := by
    rw [hcount]
    simp [Job.histOf, Job.histAt, edgesOf, Task.job, taskOf]
  rw [hhist] at hq
  rw [serve_early h.exec hlen]
  refine ⟨⟨?_, ?_, ?_, ?_, ?_, hq, ⟨?_, ?_, ?_, ?_, ?_, ?_⟩, ?_, ?_⟩, ?_, hp⟩
  · rw [hr]
  · rw [hr]
  · rw [hr]; exact hp
  · rw [hr]
  · rw [hr]; exact h.ridx
  · rw [hr]; exact h.xid
  · rw [hr]; exact h.memValid
  · simp
  · simp
  · simp
  · simp
  · have hsrc : (s.cycle clkDiv2 tap ev).src = _ := h.src_next
    rw [hsrc, hx, List.drop_of_length_le (by simp [Phase.accepted, hlen])]
  · rw [hr]
    exact Or.inr (Or.inr ⟨h.ackInput, rfl, rfl, rfl⟩)
  · rw [h.loads_eq (by simp) hfine, hp]
    simp [Dev.locConsumed, hv]

end Finish

end XvcSupport.AxisToJtag
