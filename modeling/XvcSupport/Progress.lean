import XvcSupport.ShiftSteps

namespace XvcSupport.AxisToJtag

open AxisToJtagPkg AxisToJtagCore JtagSerDesCore

variable {g : Generics} {clkDiv2 : ℕ} {tap : Tap} {s : Dev g} {ev : Bool × Bool}
  {fw : Fw g.W} {fs : List (List (BitVec g.W))} {data : BitVec g.W}
  {payload : List (BitVec g.W)}

/-- The condition under which the core can end a frame that breaks off on a TMS word.  While the
next word, offered or not, carries `TLAST`, a TDO word is still to be taken over.  One cycle after
it has been taken, either the last TDO word is in the register and stays there, or it is the only
one to come and no other word stays in the register. -/
def Dev.Sound (s : Dev g) (ev : Bool × Bool) : Prop :=
  (s.core.state = .getTms ∧ s.core.running = true ∧ (s.mAxisReq ev.1).tLast = true →
    s.core.iCnt ≠ s.core.oCnt) ∧
  (s.core.state = .align ∧ s.core.tdoPass = true ∧ s.core.tLast = false →
    (s.core.iCnt = s.core.oCnt ∧ s.sTdo ev.2 = false) ∨
    (s.core.iCnt = s.core.oCnt + 1 ∧ (s.core.tdoValid = true → s.sTdo ev.2 = true)))

instance (s : Dev g) (ev : Bool × Bool) : Decidable (s.Sound ev) := by
  dsimp only [Dev.Sound]
  infer_instance

section Busy

variable {ph : Phase} {o : ℕ} {full : Bool} {pos : Pos}

theorem CoreAt.getTms_sReady {t : Task g.W} {c : ℕ} {r : AxisToJtagCore.Reg g.W}
    (hr : CoreAt t tap (.getTms c) o full r) : r.sReady = true := by
  cases hr
  rfl

theorem CoreAt.abort_eq {t : Task g.W} {r : AxisToJtagCore.Reg g.W}
    (hr : CoreAt t tap .abort o full r) :
    r.state = .align ∧ r.tdoPass = true ∧ r.tLast = false ∧ r.tdoValid = full ∧
      r.iCnt = BitVec.ofNat 2 t.count ∧ r.oCnt = BitVec.ofNat 2 o := by
  cases hr
  exact ⟨rfl, rfl, rfl, rfl, rfl, rfl⟩

theorem CoreAt.doomed_eq {t : Task g.W} {r : AxisToJtagCore.Reg g.W}
    (hr : CoreAt t tap .doomed o full r) :
    r.state = .getTms ∧ r.running = true ∧ r.iCnt = r.oCnt ∧ t.Aborts := by
  cases hr with
  | doomed hab => exact ⟨rfl, rfl, rfl, hab⟩

theorem AtBusy.not_sound (h : AtBusy clkDiv2 tap s fw fs data payload .doomed o full pos) :
    ¬ s.Sound ev := by
  intro hs
  obtain ⟨hst, hrun, hcnt, hab⟩ := CoreAt.doomed_eq h.joint.core
  have hlen : payload.length = 2 * (taskOf fw data payload).count + 1 := hab.2.1
  refine hs.1 ⟨hst, hrun, ?_⟩ hcnt
  rw [h.mAxisReq_eq (by simp only [Phase.accepted]; omega)]
  simp only [Phase.accepted]
  exact decide_eq_true (by omega)

theorem AtBusy.fine (h : AtBusy clkDiv2 tap s fw fs data payload ph o full pos)
    (hs : s.Sound ev) :
    ph.Fine (taskOf fw data payload) o full (s.mTdi ev.1).tValid (s.sTdo ev.2) := by
  cases ph with
  | abort =>
    obtain ⟨h1, h2, h3, h4, h5, h6⟩ := CoreAt.abort_eq h.joint.core
    have hle := h.joint.le_handed
    have hge := h.joint.handed_le
    simp only [Phase.handed] at hle hge
    rcases hs.2 ⟨h1, h2, h3⟩ with ⟨heq, hno⟩ | ⟨heq, hyes⟩
    · rw [h5, h6, ofNat_two_inj hle (by omega)] at heq
      exact Or.inl ⟨heq.symm, hno⟩
    · rw [h5, h6, ofNat_two_succ] at heq
      have h2 := congrArg BitVec.toNat heq
      simp only [BitVec.toNat_ofNat] at h2
      rw [h4] at hyes
      exact Or.inr ⟨by omega, hyes⟩
  | doomed => exact absurd hs h.not_sound
  | _ => trivial

theorem phaseRank_next {W : ℕ} {t : Task W} {r : AxisToJtagCore.Reg W} {m : Axis W}
    {rdy iReady oValid : Bool} (hr : CoreAt t tap ph o full r) (hne : ph ≠ .idle) :
    phaseRank W (ph.next t o full m.tValid rdy iReady oValid) ≤
      phaseRank W ph + (m.tValid && r.sReady).toNat := by
  cases hr with
  | idle => exact absurd rfl hne
  | getTms => simp only [Phase.next]; split_ifs <;> simp [phaseRank]
  | getTdi => cases hv : m.tValid <;> simp [Phase.next, phaseRank]
  | shift => simp only [Phase.next]; split_ifs <;> simp [phaseRank]
  | drain => simp only [Phase.next]; split_ifs <;> simp [phaseRank]; omega
  | @align a nBits tLast _ _ _ _ _ _ _ hlt =>
    simp only [Phase.next]
    split_ifs with hn hrdy
    · simp [phaseRank]; omega
    · simp [phaseRank]; omega
    · simp [phaseRank]; omega
  | @discard a ready =>
    simp only [Phase.next]
    cases ready <;> split_ifs <;> simp [phaseRank] <;> omega
  | final => simp only [Phase.next]; split_ifs <;> simp [phaseRank]
  | abort => simp only [Phase.next]; split_ifs <;> simp [phaseRank] <;> omega
  | abortWait => simp only [Phase.next]; split_ifs <;> simp [phaseRank]; omega
  | doomed => simp [Phase.next]

end Busy

theorem budget_ge (clkDiv2 : ℕ) : 2 ^ 22 ≤ budget clkDiv2 := Nat.le_add_left _ _

theorem allowance_pred (clkDiv2 rest : ℕ) {rem : ℕ} (h : 0 < rem) :
    allowance clkDiv2 (rem - 1) rest + budget clkDiv2 ≤ allowance clkDiv2 rem rest := by
  rw [allowance, allowance, ← Nat.succ_mul]
  exact Nat.mul_le_mul_right _ (by omega)

theorem le_allowance (clkDiv2 rem rest : ℕ) :
    2 * rest * budget clkDiv2 ≤ allowance clkDiv2 rem rest :=
  Nat.mul_le_mul_right _ (Nat.le_add_right _ _)

theorem allowance_lt (clkDiv2 rest : ℕ) {rem : ℕ} (h : 0 < rem) :
    allowance clkDiv2 rem rest + budget clkDiv2 ≤ 2 * (rem + rest) * budget clkDiv2 := by
  rw [allowance, ← Nat.succ_mul]
  exact Nat.mul_le_mul_right _ (by omega)

theorem allowance_two (clkDiv2 rest : ℕ) {rem : ℕ} (h : 0 < rem) :
    allowance clkDiv2 rem rest + 2 * budget clkDiv2 ≤ allowance clkDiv2 (rem + 1) rest := by
  rw [allowance, allowance, ← Nat.add_mul]
  exact Nat.mul_le_mul_right _ (by omega)

theorem allowance_sub (clkDiv2 rest : ℕ) {rem : ℕ} {xfer : Bool} (h : xfer = true → 0 < rem) :
    allowance clkDiv2 (rem - xfer.toNat) rest + xfer.toNat * budget clkDiv2 ≤
      allowance clkDiv2 rem rest := by
  cases xfer with
  | false => simp
  | true => simpa using allowance_pred clkDiv2 rest (h rfl)

variable {fw0 : Fw g.W}
  {all : List (List (BitVec g.W))}

theorem Due.next {due due' : List (BitVec g.W × Bool)}
    (hd : Due tap fw0 all s due fw fs) (h : due = s.loads ev.2 ++ due') :
    Due tap fw0 all (s.cycle clkDiv2 tap ev) due' fw fs where
  served := by
    obtain ⟨served, hall, hsent, hafter⟩ := hd.served
    exact ⟨served, hall, by rw [Dev.sent_cycle, ← hsent, h, List.append_assoc], hafter⟩
  ne_nil := hd.ne_nil

theorem Due.follows {f : List (BitVec g.W)} {due : List (BitVec g.W × Bool)}
    (hd : Due tap fw0 all s due fw (f :: fs)) : Follows tap fw0 all fw f fs := by
  obtain ⟨served, hall, -, hafter⟩ := hd.served
  exact ⟨served, hall, hafter⟩

theorem Due.look {f : List (BitVec g.W)} (hd : Due tap fw0 all s [] fw (f :: fs)) :
    Due tap fw0 all s (beats (serve g tap fw f).1) (serve g tap fw f).2 fs where
  served := by
    obtain ⟨served, hall, hsent, hafter⟩ := hd.served
    rw [List.append_nil] at hsent
    refine ⟨served ++ [f], by rw [hall, List.append_assoc]; rfl, ?_, ?_⟩
    · rw [answers_append, hafter, hsent]
      simp [answers]
    · rw [afterAll_append, hafter]
      rfl
  ne_nil f' hmem := hd.ne_nil f' (List.mem_cons_of_mem _ hmem)

theorem Dev.loads_local (hp : s.r.passTdo = false) (rdy : Bool) :
    s.loads rdy =
      if s.locConsumed rdy then [(s.r.replyData.tData, s.r.replyData.tLast)] else [] := by
  cases hb : AxiStreamSelector.rdyLoc s.streamBuf rdy <;> cases hv : s.r.replyData.tValid <;>
    simp [Dev.loads, Dev.locConsumed, hp, hb, hv, offered]

/-- Neither the master nor the slave makes the entity wait. -/
def Dev.Helped (s : Dev g) (ev : Bool × Bool) : Prop :=
  ev.2 = true ∧ ((s.mAxisReq ev.1).tValid = true ∨ s.src = [])

theorem Dev.rdyLoc_of_helped (hh : s.Helped ev) :
    AxiStreamSelector.rdyLoc s.streamBuf ev.2 = true := by
  simp [AxiStreamSelector.rdyLoc, hh.1]

theorem Dev.tValid_of_helped {rem : List (BitVec g.W)} {rest : List (BitVec g.W × Bool)}
    (hh : s.Helped ev) (hsrc : s.src = beats rem ++ rest) (hne : rem ≠ []) :
    (s.mAxisReq ev.1).tValid = true := by
  rcases hh.2 with hv | hv
  · exact hv
  · rw [hsrc, List.append_eq_nil_iff, beats_eq_nil] at hv
    exact absurd hv.1 hne

variable (clkDiv2 tap fw0 all) in
/-- After the cycle the entity is in a stage again, and no further from the end. -/
def Advances (n : ℕ) (s : Dev g) (ev : Bool × Bool) : Prop :=
  ∃ n', DevAt clkDiv2 tap fw0 all n' (s.cycle clkDiv2 tap ev) ∧ n' ≤ n ∧
    (s.reqXfer ev.1 = true ∨ s.Helped ev → 0 < n → n' < n)

theorem AtIdle.advances_wait (h : AtIdle s fw fs) (hd : Due tap fw0 all s [] fw fs)
    (hv : (s.mAxisReq ev.1).tValid = false) :
    Advances clkDiv2 tap fw0 all (2 * s.src.length * budget clkDiv2 + s.waiting) s ev := by
  have hno : s.locConsumed ev.2 = false := by simp [Dev.locConsumed, h.reply]
  have hload : s.loads ev.2 = [] := by simp [Dev.loads_local h.passTdo, hno]
  have hwait := s.waiting_cycle clkDiv2 tap ev
  rw [hload, List.length_nil, Nat.add_zero] at hwait
  have hsrc : (s.cycle clkDiv2 tap ev).src = s.src := by simp [Dev.cycle, Dev.reqXfer, hv]
  refine ⟨_, .idle (h.wait hv) (hd.next (by rw [hload]; rfl)), ?_, ?_⟩
  · rw [hsrc]
    omega
  · intro hmove hn
    have hh : s.Helped ev := by
      rcases hmove with hx | hh
      · simp [Dev.reqXfer, hv] at hx
      · exact hh
    have hnil : s.src = [] := by
      rcases hh.2 with hv' | hnil
      · rw [hv] at hv'
        exact absurd hv' (by simp)
      · exact hnil
    have h0 := hwait.2 hh.1
    rw [hsrc, hnil, h0]
    rw [hnil] at hn
    simpa using hn

theorem AtIdle.advances_look (h : AtIdle s fw ((data :: payload) :: fs))
    (hd : Due tap fw0 all s [] fw ((data :: payload) :: fs))
    (hv : (s.mAxisReq ev.1).tValid = true) :
    Advances clkDiv2 tap fw0 all (2 * s.src.length * budget clkDiv2 + s.waiting) s ev := by
  have hno : s.locConsumed ev.2 = false := by simp [Dev.locConsumed, h.reply]
  have hload : s.loads ev.2 = [] := by simp [Dev.loads_local h.passTdo, hno]
  have hwait := s.waiting_cycle clkDiv2 tap ev
  rw [hload, List.length_nil, Nat.add_zero] at hwait
  have hbud := budget_ge clkDiv2
  have hlen : s.src.length = payload.length + 1 + (fs.flatMap beats).length := by
    rw [h.src, List.flatMap_cons, List.length_append, beats_length, List.length_cons]
  have hall := allowance_lt clkDiv2 (fs.flatMap beats).length (Nat.add_one_pos payload.length)
  rw [← hlen] at hall
  have hdue : ∀ due, due = beats (serve g tap fw (data :: payload)).1 →
      Due tap fw0 all (s.cycle clkDiv2 tap ev) due (serve g tap fw (data :: payload)).2 fs := by
    rintro due rfl
    have hd' : Due tap fw0 all (s.cycle clkDiv2 tap ev) [] fw ((data :: payload) :: fs) :=
      hd.next (by rw [hload]; rfl)
    exact hd'.look
  cases hloc : (idle g fw.xid fw.memValid data payload.isEmpty).isLocal with
  | true =>
    have hserve : serve g tap fw (data :: payload) = _ := serve_local hloc
    refine ⟨_, .sendRep (h.answer hv hloc) (hdue _ (by simp [hserve])), ?_, ?_⟩
    · simp only [List.length_cons, Bool.toNat_true]
      omega
    · intro _ _
      simp only [List.length_cons, Bool.toNat_true]
      omega
  | false =>
    cases hdec : idle g fw.xid fw.memValid data payload.isEmpty with
    | execute =>
      have hone := Bool.toNat_le (!(s.cycle clkDiv2 tap ev).core.sReady)
      refine ⟨_, .start (h.execute hv hdec) hd.follows (hdue _ rfl), ?_, ?_⟩
      · omega
      · intro _ _
        omega
    | replay =>
      have hat : AtReplay (s.cycle clkDiv2 tap ev) fw fs data 0 (data :: payload) :=
        h.replay hv hdec
      have hle := hat.stores.le hat.memValid
      have hdep := g.memDepth_lt
      have hserve : serve g tap fw (data :: payload) = (data :: fw.mem, fw) := by
        simp [serve, hdec]
      rw [hserve] at hdue
      refine ⟨_, .replay hat (hdue _ rfl), ?_, ?_⟩
      · simp only [List.length_cons]
        omega
      · intro _ _
        simp only [List.length_cons]
        omega
    | _ => simp [hdec, Decision.isLocal] at hloc

theorem AtIdle.advances (h : AtIdle s fw fs)
    (hd : Due tap fw0 all s [] fw fs) :
    Advances clkDiv2 tap fw0 all (2 * s.src.length * budget clkDiv2 + s.waiting) s ev := by
  cases hv : (s.mAxisReq ev.1).tValid with
  | false => exact h.advances_wait hd hv
  | true =>
    cases fs with
    | nil => simp [Dev.mAxisReq, h.src, Axis.init] at hv
    | cons f fs =>
      have hf := hd.ne_nil f (by simp)
      cases f with
      | nil => exact absurd rfl hf
      | cons data payload => exact h.advances_look hd hv

theorem AtSendRep.advances {w : BitVec g.W} {pending : Bool} {rem : List (BitVec g.W)}
    (h : AtSendRep s fw fs w pending rem)
    (hd : Due tap fw0 all s (if pending then [(w, true)] else []) fw fs) :
    Advances clkDiv2 tap fw0 all
      (allowance clkDiv2 rem.length (fs.flatMap beats).length + 1 + 2 * pending.toNat + s.waiting)
      s ev := by
  have hload : s.loads ev.2 = if s.locConsumed ev.2 then [(w, true)] else [] := by
    rw [Dev.loads_local h.passTdo, h.reply]
  have hpend : s.locConsumed ev.2 = true → pending = true := by
    simp only [Dev.locConsumed, h.reply, Bool.and_eq_true]
    exact fun hl => hl.2
  have hd' : Due tap fw0 all (s.cycle clkDiv2 tap ev)
      (if pending && !s.locConsumed ev.2 then [(w, true)] else []) fw fs := by
    refine hd.next ?_
    rw [hload]
    cases hl : s.locConsumed ev.2 with
    | false => simp
    | true => simp [hpend hl]
  have hwait := s.waiting_cycle clkDiv2 tap ev
  have hlen : (s.loads ev.2).length + (pending && !s.locConsumed ev.2).toNat = pending.toNat := by
    rw [hload]
    cases hl : s.locConsumed ev.2 with
    | false => simp
    | true => simp [hpend hl]
  have hne : s.reqXfer ev.1 = true → 0 < rem.length := fun hx =>
    List.length_pos_iff.mpr ((Dev.absorb ev h.src h.passTdi h.rem_ne).1 hx)
  have hrem := remNext_length (s.reqXfer ev.1) rem
  have hall := allowance_sub clkDiv2 (fs.flatMap beats).length hne
  have hbud := budget_ge clkDiv2
  obtain ⟨hidle, hstay⟩ := h.next clkDiv2 tap ev
  by_cases hend : remNext (s.reqXfer ev.1) rem = [] ∧ (pending && !s.locConsumed ev.2) = false
  · have hle := le_allowance clkDiv2 rem.length (fs.flatMap beats).length
    rw [hend.2] at hd' hlen
    rw [Bool.toNat_false, Nat.add_zero] at hlen
    refine ⟨_, .idle (hidle hend) hd', ?_, ?_⟩
    · rw [(hidle hend).src]
      omega
    · intro _ _
      rw [(hidle hend).src]
      omega
  · refine ⟨_, .sendRep (hstay hend) hd', ?_, ?_⟩
    · rw [hrem]
      omega
    · rintro (hx | hh) _
      · rw [hrem]
        rw [hx, Bool.toNat_true, one_mul] at hall
        rw [hx, Bool.toNat_true]
        omega
      rw [hrem]
      have h0 := hwait.2 hh.1
      cases hp : pending with
      | true =>
        have hl : s.locConsumed ev.2 = true := by
          simp [Dev.locConsumed, h.passTdo, h.reply, hp, Dev.rdyLoc_of_helped hh]
        simp only [hp, hl, Bool.not_true, Bool.and_false, Bool.toNat_false, Bool.toNat_true]
          at hlen ⊢
        omega
      | false =>
        -- the slave has the answer, so a word of the request is taken
        have hx : s.reqXfer ev.1 = true := by
          have hack : s.r.ackInput = true ∧ rem ≠ [] := by
            rcases h.flow with ⟨hack, -, hr⟩ | ⟨hack, -, hr, -⟩ | ⟨-, -, -, hr⟩
            · exact ⟨hack, hr⟩
            · exact ⟨hack, h.rem_ne hack⟩
            · rw [hp] at hr
              exact absurd hr (by simp)
          have hv := Dev.tValid_of_helped hh h.src hack.2
          simp [Dev.reqXfer, Dev.sAxisReqLoc, h.passTdi, hack.1, hv]
        simp only [hp, hx, Bool.false_and, Bool.toNat_false, Bool.toNat_true, one_mul]
          at hlen hall ⊢
        omega

theorem AtReplay.advances {k : ℕ} {rem : List (BitVec g.W)} (h : AtReplay s fw fs data k rem)
    (hd : Due tap fw0 all s (beats ((data :: fw.mem).drop k)) fw fs) :
    Advances clkDiv2 tap fw0 all
      (allowance clkDiv2 rem.length (fs.flatMap beats).length + 1 + 2 * (fw.mem.length + 1 - k) +
        s.waiting) s ev := by
  have hloc : s.locConsumed ev.2 = true → k ≤ fw.mem.length := by
    simp only [Dev.locConsumed, h.valid, Bool.and_eq_true, decide_eq_true_iff]
    exact fun hl => hl.2
  have hload : s.loads ev.2 = if s.locConsumed ev.2 then
      [((data :: fw.mem).getD k 0, decide (fw.mem.length ≤ k))] else [] := by
    rw [Dev.loads_local h.passTdo, h.tLast]
    cases hl : s.locConsumed ev.2 with
    | false => rfl
    | true => rw [h.reply (hloc hl)]
  have hd' : Due tap fw0 all (s.cycle clkDiv2 tap ev)
      (beats ((data :: fw.mem).drop (k + (s.locConsumed ev.2).toNat))) fw fs := by
    refine hd.next ?_
    rw [hload]
    cases hl : s.locConsumed ev.2 with
    | false => rfl
    | true =>
      have hk := hloc hl
      have hlast : decide (k + 1 = (data :: fw.mem).length) = decide (fw.mem.length ≤ k) := by
        rw [decide_eq_decide, List.length_cons]
        omega
      rw [beats_drop (by simpa using by omega), hlast]
      rfl
  have hwait := s.waiting_cycle clkDiv2 tap ev
  have hlen : (s.loads ev.2).length = (s.locConsumed ev.2).toNat := by
    rw [hload]
    cases s.locConsumed ev.2 <;> rfl
  have hk : (s.locConsumed ev.2).toNat = 1 → k ≤ fw.mem.length := by
    cases hl : s.locConsumed ev.2 with
    | false => simp
    | true => exact fun _ => hloc hl
  have ha : s.r.ackInput = true → rem ≠ [] := by
    rw [h.ackInput]
    simp
  have hne : s.reqXfer ev.1 = true → 0 < rem.length := fun hx =>
    List.length_pos_iff.mpr ((Dev.absorb ev h.src h.passTdi ha).1 hx)
  have hrem := remNext_length (s.reqXfer ev.1) rem
  have hall := allowance_sub clkDiv2 (fs.flatMap beats).length hne
  have hbud := budget_ge clkDiv2
  have hone := Bool.toNat_le (s.locConsumed ev.2)
  obtain ⟨hidle, hstay⟩ := h.next clkDiv2 tap ev
  by_cases hend :
      remNext (s.reqXfer ev.1) rem = [] ∧ fw.mem.length < k + (s.locConsumed ev.2).toNat
  · have hle := le_allowance clkDiv2 rem.length (fs.flatMap beats).length
    rw [List.drop_of_length_le (by simpa using hend.2)] at hd'
    refine ⟨_, .idle (hidle hend) hd', ?_, ?_⟩
    · rw [(hidle hend).src]
      omega
    · intro _ _
      rw [(hidle hend).src]
      omega
  · refine ⟨_, .replay (hstay hend) hd', ?_, ?_⟩
    · rw [hrem]
      omega
    · rintro (hx | hh) _
      · rw [hrem]
        rw [hx, Bool.toNat_true, one_mul] at hall
        rw [hx, Bool.toNat_true]
        omega
      rw [hrem]
      have h0 := hwait.2 hh.1
      by_cases hopen : k ≤ fw.mem.length
      · have hl : s.locConsumed ev.2 = true := by
          simp [Dev.locConsumed, h.passTdo, h.valid, hopen, Dev.rdyLoc_of_helped hh]
        simp only [hl, Bool.toNat_true] at hlen ⊢
        omega
      · have hr : rem ≠ [] := fun hr => hopen (h.open_ hr)
        have hx : s.reqXfer ev.1 = true := by
          have hv := Dev.tValid_of_helped hh h.src hr
          simp [Dev.reqXfer, Dev.sAxisReqLoc, h.passTdi, h.ackInput, hr, hv]
        simp only [hx, Bool.toNat_true, one_mul] at hall ⊢
        omega

theorem Task.total_le {W : ℕ} (t : Task W) : t.total ≤ 2 ^ 20 := by
  have := t.len.isLt
  unfold Task.total
  omega

theorem Task.count_le {W : ℕ} (hW : 0 < W) (t : Task W) : t.count ≤ 2 ^ 20 := by
  have htot := Task.total_le t
  by_contra hcon
  have hlt := ((t.lt_count hW).mp (not_le.mp hcon)).1
  have := Nat.mul_le_mul_left (2 ^ 20) hW
  omega

theorem serve_length_le (hex : idle g fw.xid fw.memValid data payload.isEmpty = .execute) :
    (serve g tap fw (data :: payload)).1.length ≤ 2 ^ 20 + 1 := by
  by_cases hlen : payload.length = 1
  · rw [serve_early hex hlen]
    simp
  · rw [serve_execute hex hlen, List.length_cons, shiftTdo_length]
    have := Task.count_le g.W_pos (taskOf fw data payload)
    omega

theorem AtStart.advances (h : AtStart s fw fs data payload)
    (hc : Follows tap fw0 all fw (data :: payload) fs)
    (hd : Due tap fw0 all s (beats (serve g tap fw (data :: payload)).1)
      (serve g tap fw (data :: payload)).2 fs) :
    Advances clkDiv2 tap fw0 all
      (allowance clkDiv2 (payload.length + 1) (fs.flatMap beats).length + 1 +
        (!s.core.sReady).toNat + s.waiting) s ev := by
  have hno : s.locConsumed ev.2 = false := by simp [Dev.locConsumed, h.reply]
  have hload : s.loads ev.2 = [] := by simp [Dev.loads_local h.passTdo, hno]
  have hwait := s.waiting_cycle clkDiv2 tap ev
  rw [hload, List.length_nil, Nat.add_zero] at hwait
  have hd' : Due tap fw0 all (s.cycle clkDiv2 tap ev)
      (beats (serve g tap fw (data :: payload)).1) (serve g tap fw (data :: payload)).2 fs :=
    hd.next (by rw [hload]; rfl)
  cases hx : s.reqXfer ev.1 with
  | false =>
    obtain ⟨hat, hready⟩ : AtStart (s.cycle clkDiv2 tap ev) fw fs data payload ∧ _ := h.wait hx
    refine ⟨_, .start hat hc hd', ?_, ?_⟩
    · rw [hready]
      simp only [Bool.not_true, Bool.toNat_false]
      omega
    · rintro (hxt | hh) _
      · rw [hx] at hxt
        exact absurd hxt (by simp)
      have hv := Dev.tValid_of_helped hh h.src (by simp)
      have hns : s.core.sReady = false := by
        simpa [Dev.reqXfer, Dev.sAxisReqLoc, h.passTdi, hv] using hx
      have h0 := hwait.2 hh.1
      rw [hready, hns]
      simp only [Bool.not_true, Bool.not_false, Bool.toNat_false, Bool.toNat_true]
      omega
  | true =>
    have hr : (s.cycle clkDiv2 tap ev).r = s.r := h.r_next
    have hp : (s.cycle clkDiv2 tap ev).r.passTdo = false := by rw [hr, h.passTdo]
    have hdue : shiftDue tap (s.cycle clkDiv2 tap ev) fw data payload 0 =
        beats (serve g tap fw (data :: payload)).1 := by
      rw [shiftDue, hp]
      rfl
    rw [← hdue] at hd'
    have hsave : Saved tap (s.cycle clkDiv2 tap ev) fw data payload 0 := by
      intro _
      rw [hr, h.widx]
      exact ⟨rfl, fun i hi => absurd hi (by omega)⟩
    refine ⟨_, .busy (h.go hx) hc (by simp) (fun _ => rfl) hsave hd', ?_⟩
    -- one word of the request pays for the whole shift
    have hpos : Pos.rank (taskOf fw data payload).job clkDiv2 (.idle 0 false) ≤
        (3 * clkDiv2 + 5) * 2 ^ 20 := by
      simp only [Pos.rank, Bool.toNat_false, Nat.zero_mul, Nat.sub_zero, Nat.add_zero]
      exact Nat.mul_le_mul_left _
        ((Nat.min_le_left _ _).trans (Task.total_le (taskOf fw data payload)))
    have hlen : (shiftDue tap (s.cycle clkDiv2 tap ev) fw data payload 0).length ≤ 2 ^ 20 + 1 := by
      rw [hdue, beats_length]
      exact serve_length_le h.exec
    have hW : g.W ≤ 128 := by
      have := g.le_sixteen
      unfold Generics.W
      omega
    have hst : (s.cycle clkDiv2 tap ev).r.state = .waitStarted := by rw [hr, h.state]
    have hne := List.length_pos_iff.mpr (payload_ne_nil h.exec).1
    have hall := allowance_two clkDiv2 (fs.flatMap beats).length hne
    have hsplit : budget clkDiv2 = (3 * clkDiv2 + 5) * 2 ^ 20 + 2 ^ 22 := rfl
    have hlt : allowance clkDiv2 (payload.length -
        (Phase.getTms 0).accepted (taskOf fw data payload)) (fs.flatMap beats).length +
        Pos.rank (taskOf fw data payload).job clkDiv2 (.idle 0 false) +
        phaseRank g.W (.getTms 0) + stateRank (s.cycle clkDiv2 tap ev).r.state +
        2 * (shiftDue tap (s.cycle clkDiv2 tap ev) fw data payload 0).length +
        (s.cycle clkDiv2 tap ev).waiting <
      allowance clkDiv2 (payload.length + 1) (fs.flatMap beats).length + 1 +
        (!s.core.sReady).toNat + s.waiting := by
      rw [hst]
      simp only [Phase.accepted, Nat.mul_zero, Nat.sub_zero, phaseRank, stateRank]
      omega
    exact ⟨hlt.le, fun _ _ => hlt⟩

section Busy

variable {ph : Phase} {o : ℕ} {full : Bool} {pos : Pos}

theorem AtBusy.xfer_of_helped (h : AtBusy clkDiv2 tap s fw fs data payload ph o full pos)
    (hh : s.Helped ev) (hready : s.core.sReady = true)
    (ha : ph.accepted (taskOf fw data payload) < payload.length) : s.reqXfer ev.1 = true := by
  have hv := Dev.tValid_of_helped hh h.src (by simpa using ha)
  rw [h.reqXfer_eq, hready, Dev.mTdi, hv, h.passTdi, decide_eq_true ha]
  rfl

theorem owing_not_stuck {valid ready : Bool} (howe : pos.given < pos.taken)
    (hready : ready = true) : pos.stuck valid ready = false := by
  subst hready
  cases pos with
  | idle j out => cases out <;> simp_all [Pos.stuck, Pos.given, Pos.taken]
  | _ => rfl

theorem AtBusy.progress (h : AtBusy clkDiv2 tap s fw fs data payload ph o full pos)
    (hd : ph ≠ .doomed) (hh : s.Helped ev) (hload : s.loads ev.2 = []) (iReady oValid : Bool) :
    s.reqXfer ev.1 = true ∨ pos.stuck s.core.tdiValid (s.core.tdoReady (s.sTdo ev.2)) = false ∨
      phaseRank g.W (ph.next (taskOf fw data payload) o full (s.mTdi ev.1).tValid (s.sTdo ev.2)
        iReady oValid) < phaseRank g.W ph ∨
      (s.r.state = .waitStarted ∧ ph.runs = true) := by
  have hx := h.xfer_of_helped hh
  rcases h.state with ⟨hst, -, -, rfl | rfl⟩ | ⟨hst, hv, hp, -⟩ | ⟨hst, hv, hp, hruns⟩
  · have hcore := h.joint.core
    generalize s.core = r at hcore hx
    cases hcore with
    | getTms _ hl => exact Or.inl (hx rfl hl)
  · exact Or.inr (Or.inr (Or.inr ⟨hst, rfl⟩))
  · rw [Dev.loads_local hp] at hload
    simp [Dev.locConsumed, hp, hv, Dev.rdyLoc_of_helped hh] at hload
  · have hrdy : s.sTdo ev.2 = true := by simp [Dev.sTdo, hp, Dev.rdyLoc_of_helped hh]
    have hempty : (full && ph.passes) = false := by
      rw [← h.joint.core.tValid_eq]
      by_contra hcon
      simp [Dev.loads, hp, Dev.rdyLoc_of_helped hh, offered, hcon] at hload
    have hgiven := h.joint.given
    have htaken := h.joint.taken
    have hacks := h.joint.acks
    rw [h.joint.core.tdiValid_eq, h.joint.core.tdoReady_eq, hrdy, Bool.true_and]
    have hcore := h.joint.core
    generalize s.core = r at hcore hx
    cases hcore with
    | idle => exact absurd rfl h.work
    | getTms _ hl => exact Or.inl (hx rfl hl)
    | getTdi hc =>
      have hlt : _ + 2 ≤ payload.length := (((taskOf fw data payload).lt_count g.W_pos).mp hc).2
      exact Or.inl (hx rfl (by simp only [Phase.accepted]; omega))
    | shift =>
      refine Or.inr (Or.inl ?_)
      cases pos <;> simp [Pos.stuck, Phase.shifts, Phase.passes]
    | drain ho =>
      have hfull : full = false := by simpa [Phase.passes] using hempty
      refine Or.inr (Or.inl (owing_not_stuck ?_ (by simp [hfull])))
      rw [htaken, hgiven,
        Bool.eq_false_iff.mpr fun ha => absurd (hacks ha) (by simp [Phase.shifts])]
      simp only [Phase.handed, Bool.toNat_false]
      omega
    | align _ hlt hlast =>
      refine Or.inr (Or.inr (Or.inl ?_))
      simp only [Phase.next, if_true]
      split_ifs with hn
      · simp [phaseRank]
        omega
      · simp [phaseRank]
        omega
    | @discard a ready _ _ _ _ _ _ _ hseen ha hle hready =>
      by_cases hal : a = (taskOf fw data payload).payload.length
      · refine Or.inr (Or.inr (Or.inl ?_))
        simp only [Phase.next, hal, if_true, phaseRank]
        omega
      · cases hre : ready with
        | false =>
          refine Or.inr (Or.inr (Or.inl ?_))
          simp [Phase.next, hal, phaseRank]
        | true => exact Or.inl (hx (by rw [hready hal, hre]) (lt_of_le_of_ne hle hal))
    | final => simp [Phase.passes] at hempty
    | abort =>
      refine Or.inr (Or.inr (Or.inl ?_))
      simp only [Phase.next]
      split_ifs <;> simp only [phaseRank, Bool.not_true, Bool.toNat_false] <;> omega
    | abortWait hab =>
      refine Or.inr (Or.inl (owing_not_stuck ?_ (by simp)))
      rw [htaken, hgiven,
        Bool.eq_false_iff.mpr fun ha => absurd (hacks ha) (by simp [Phase.shifts])]
      have := hab.1
      simp only [Phase.handed, Bool.toNat_false]
      omega
    | doomed => exact absurd rfl hd

theorem stateRank_le {st : StateType} (ph : Phase) (lc : Bool) :
    stateRank (if st = .waitStarted then if ph.runs then .waitHdrReady else .waitStarted
      else if st = .waitHdrReady then if lc then .waitStopped else .waitHdrReady
      else .waitStopped) + (decide (st = .waitStarted ∧ ph.runs = true)).toNat ≤ stateRank st := by
  cases st <;> cases hr : ph.runs <;> cases lc <;> simp [stateRank]

theorem AtBusy.none_next (h : AtBusy clkDiv2 tap s fw fs data payload ph o full pos)
    (hnone : s.r.passTdo = false → o = full.toNat)
    (hpass : (s.cycle clkDiv2 tap ev).r.passTdo = (s.r.passTdo || s.locConsumed ev.2)) :
    (s.cycle clkDiv2 tap ev).r.passTdo = false →
      o + (takesOver full (s.sTdo ev.2 && ph.passes) s.ser.oValid).toNat =
        (fills full (s.sTdo ev.2 && ph.passes) s.ser.oValid).toNat := by
  intro hp
  rw [hpass, Bool.or_eq_false_iff] at hp
  have hno : s.sTdo ev.2 = false := by simp [Dev.sTdo, hp.1]
  rw [hnone hp.1, hno]
  cases full <;> cases s.ser.oValid <;> rfl

variable (ev) in
theorem AtBusy.allowance_next (h : AtBusy clkDiv2 tap s fw fs data payload ph o full pos)
    (rest : ℕ) :
    allowance clkDiv2 (payload.length - ph.accepted (taskOf fw data payload) -
        (s.reqXfer ev.1).toNat) rest + (s.reqXfer ev.1).toNat * budget clkDiv2 ≤
      allowance clkDiv2 (payload.length - ph.accepted (taskOf fw data payload)) rest := by
  apply allowance_sub clkDiv2 rest
  intro hx
  have := h.xfer_lt hx
  omega

variable (ev) in
theorem AtBusy.paid_next (h : AtBusy clkDiv2 tap s fw fs data payload ph o full pos) (rest : ℕ) :
    allowance clkDiv2 (payload.length - ph.accepted (taskOf fw data payload) -
        (s.reqXfer ev.1).toNat) rest +
        phaseRank g.W (ph.next (taskOf fw data payload) o full (s.mTdi ev.1).tValid (s.sTdo ev.2)
          s.ser.iReady s.ser.oValid) + (s.reqXfer ev.1).toNat ≤
      allowance clkDiv2 (payload.length - ph.accepted (taskOf fw data payload)) rest +
        phaseRank g.W ph := by
  have hall := h.allowance_next ev rest
  have hbud := budget_ge clkDiv2
  have hphase : phaseRank g.W (ph.next (taskOf fw data payload) o full (s.mTdi ev.1).tValid
      (s.sTdo ev.2) s.ser.iReady s.ser.oValid) ≤
      phaseRank g.W ph + (s.reqXfer ev.1).toNat := by
    rw [h.reqXfer_eq, Bool.and_comm]
    exact phaseRank_next h.joint.core h.work
  cases hx : s.reqXfer ev.1 with
  | false =>
    rw [hx, Bool.toNat_false] at hall hphase
    simp only [Bool.toNat_false]
    omega
  | true =>
    rw [hx, Bool.toNat_true] at hall hphase
    simp only [Bool.toNat_true]
    omega

theorem AtBusy.advances_next (h : AtBusy clkDiv2 tap s fw fs data payload ph o full pos)
    (hD : 0 < clkDiv2) (hin : s.InRange ev)
    (hc : Follows tap fw0 all fw (data :: payload) fs) (hne : ph ≠ .doomed)
    (hnone : s.r.passTdo = false → o = full.toNat)
    (hsave : Saved tap s fw data payload (o - full.toNat))
    (hd : Due tap fw0 all s (shiftDue tap s fw data payload (o - full.toNat))
      (serve g tap fw (data :: payload)).2 fs)
    (hfine : ph.Fine (taskOf fw data payload) o full (s.mTdi ev.1).tValid (s.sTdo ev.2))
    (hidle : ph.next (taskOf fw data payload) o full (s.mTdi ev.1).tValid (s.sTdo ev.2)
      s.ser.iReady s.ser.oValid ≠ .idle) :
    Advances clkDiv2 tap fw0 all
      (allowance clkDiv2 (payload.length - ph.accepted (taskOf fw data payload))
        (fs.flatMap beats).length + pos.rank (taskOf fw data payload).job clkDiv2 +
        phaseRank g.W ph + stateRank s.r.state +
        2 * (shiftDue tap s fw data payload (o - full.toNat)).length + s.waiting) s ev := by
  have hat : AtBusy clkDiv2 tap (s.cycle clkDiv2 tap ev) fw fs data payload _ _ _ _ :=
    h.next hD hfine hidle
  by_cases hdoom : ph.next (taskOf fw data payload) o full (s.mTdi ev.1).tValid (s.sTdo ev.2)
      s.ser.iReady s.ser.oValid = .doomed
  · rw [hdoom] at hat
    exact ⟨0, .doomed hat hc, Nat.zero_le _, fun _ hn => hn⟩
  · have hr : (s.cycle clkDiv2 tap ev).r = _ := h.r_next (h.no_end hidle).1 (h.no_end hidle).2
    have hpass : (s.cycle clkDiv2 tap ev).r.passTdo = (s.r.passTdo || s.locConsumed ev.2) := by
      rw [hr]
    have hdue := h.due_next hne hnone hfine hpass
    have hd' : Due tap fw0 all (s.cycle clkDiv2 tap ev) _ _ fs := hd.next hdue
    have hsave' : Saved tap (s.cycle clkDiv2 tap ev) fw data payload _ :=
      h.saved_next hne hin hfine hsave (by rw [hr]) rfl
    have hnone' := h.none_next hnone hpass
    refine ⟨_, .busy hat hc hdoom hnone' hsave' hd', ?_⟩
    have hrank := h.joint.ser.rank_next hat.joint.ser
    have hst : stateRank (s.cycle clkDiv2 tap ev).r.state +
        (decide (s.r.state = .waitStarted ∧ ph.runs = true)).toNat ≤ stateRank s.r.state := by
      rw [hr]
      exact stateRank_le ph (s.locConsumed ev.2)
    have hwait := s.waiting_cycle clkDiv2 tap ev
    have hlen := congrArg List.length hdue
    rw [List.length_append] at hlen
    rw [h.accepted_next hfine hidle, ← Nat.sub_sub]
    have hall := h.allowance_next ev (fs.flatMap beats).length
    have hmove := h.paid_next ev (fs.flatMap beats).length
    constructor
    · omega
    · rintro (hx | hh) _
      · rw [hx, Bool.toNat_true] at hmove ⊢
        omega
      have h0 := hwait.2 hh.1
      by_cases hload : s.loads ev.2 = []
      · rw [hload, List.length_nil] at h0 hlen
        rcases h.progress hne hh hload s.ser.iReady s.ser.oValid with hx | hstuck | hlt | hstart
        · rw [hx, Bool.toNat_true] at hmove ⊢
          omega
        · rw [hstuck, Bool.not_false, Bool.toNat_true] at hrank
          omega
        · omega
        · rw [decide_eq_true hstart, Bool.toNat_true] at hst
          omega
      · have := List.length_pos_iff.mpr hload
        omega

theorem AtBusy.finish_due (h : AtBusy clkDiv2 tap s fw fs data payload .final o full pos)
    (hnone : s.r.passTdo = false → o = full.toNat) (hrdy : s.sTdo ev.2 = true) :
    shiftDue tap s fw data payload (o - full.toNat) = s.loads ev.2 ++ [] := by
  have hp : s.r.passTdo = true := by
    simp only [Dev.sTdo, Bool.and_eq_true] at hrdy
    exact hrdy.1
  have hcount := h.joint.core.final_eq
  have hov : s.ser.oValid = false := h.joint.offers.oValid_eq_false hcount.1.ge
  have hpass : s.r.passTdo = (s.r.passTdo || s.locConsumed ev.2) := by
    rw [hp]
    rfl
  have hdue := h.due_next (by simp) hnone trivial hpass
  have hlast : shiftDue tap s fw data payload
      (o + (takesOver full (s.sTdo ev.2 && Phase.final.passes) s.ser.oValid).toNat -
        (fills full (s.sTdo ev.2 && Phase.final.passes) s.ser.oValid).toNat) = [] := by
    rw [hov, hcount.2, hrdy, shiftDue, hp, if_pos rfl, beats_eq_nil, List.drop_eq_nil_iff,
      shiftTdo_length, hcount.1]
    rfl
  rw [hdue, hlast]

theorem AtBusy.advances (h : AtBusy clkDiv2 tap s fw fs data payload ph o full pos)
    (hD : 0 < clkDiv2) (hin : s.InRange ev)
    (hc : Follows tap fw0 all fw (data :: payload) fs) (hne : ph ≠ .doomed)
    (hnone : s.r.passTdo = false → o = full.toNat)
    (hsave : Saved tap s fw data payload (o - full.toNat))
    (hd : Due tap fw0 all s (shiftDue tap s fw data payload (o - full.toNat))
      (serve g tap fw (data :: payload)).2 fs)
    (hs : s.Sound ev) :
    Advances clkDiv2 tap fw0 all
      (allowance clkDiv2 (payload.length - ph.accepted (taskOf fw data payload))
        (fs.flatMap beats).length + pos.rank (taskOf fw data payload).job clkDiv2 +
        phaseRank g.W ph + stateRank s.r.state +
        2 * (shiftDue tap s fw data payload (o - full.toNat)).length + s.waiting) s ev := by
  have hfine := h.fine hs
  have hwait := s.waiting_cycle clkDiv2 tap ev
  have hbud := budget_ge clkDiv2
  by_cases hidle : ph.next (taskOf fw data payload) o full (s.mTdi ev.1).tValid (s.sTdo ev.2)
      s.ser.iReady s.ser.oValid = .idle
  · rcases Phase.next_idle h.work hidle with ⟨rfl, hrdy⟩ | ⟨rfl, hv, hlen⟩
    · have hat : AtIdle (s.cycle clkDiv2 tap ev) _ fs := h.finish hD hin hsave hrdy
      have hdue := h.finish_due hnone hrdy
      have hd' : Due tap fw0 all (s.cycle clkDiv2 tap ev) [] _ fs := hd.next hdue
      have hle := le_allowance clkDiv2
        (payload.length - Phase.final.accepted (taskOf fw data payload)) (fs.flatMap beats).length
      have hlen := congrArg List.length hdue
      rw [List.append_nil] at hlen
      refine ⟨_, .idle hat hd', ?_, ?_⟩
      · rw [hat.src]
        omega
      · intro _ _
        rw [hat.src]
        simp only [phaseRank]
        omega
    · have hlen : payload.length = 1 := hlen
      have hx : s.reqXfer ev.1 = true := by
        rw [h.reqXfer_eq, CoreAt.getTms_sReady h.joint.core, hv]
        rfl
      obtain ⟨hat, hload, hp⟩ := h.early hD hlen hx
      have hdue : shiftDue tap s fw data payload (o - full.toNat) =
          [(setErr errTruncated data, true)] := by
        rw [shiftDue, hp, serve_early h.exec hlen]
        rfl
      have hd' : Due tap fw0 all (s.cycle clkDiv2 tap ev)
          (if true then [(setErr errTruncated data, true)] else []) _ fs :=
        hd.next (by rw [hload, hdue]; rfl)
      have hall := allowance_pred clkDiv2 (fs.flatMap beats).length one_pos
      rw [Nat.sub_self] at hall
      rw [hload] at hwait
      refine ⟨_, .sendRep hat hd', ?_⟩
      rw [hdue, hlen]
      simp only [List.length_nil, List.length_cons, Phase.accepted, Bool.toNat_true, Nat.mul_zero,
        Nat.sub_zero] at hwait ⊢
      constructor
      · omega
      · intro _ _
        omega
  · exact h.advances_next hD hin hc hne hnone hsave hd hfine hidle

end Busy

theorem DevAt.advances (hD : 0 < clkDiv2) {n : ℕ}
    (h : DevAt clkDiv2 tap fw0 all n s) (hs : s.Sound ev) (hin : s.InRange ev) :
    Advances clkDiv2 tap fw0 all n s ev := by
  cases h with
  | idle h hd => exact h.advances hd
  | sendRep h hd => exact h.advances hd
  | start h hc hd => exact h.advances hc hd
  | busy h hc hne hnone hsave hd => exact h.advances hD hin hc hne hnone hsave hd hs
  | replay h hd => exact h.advances hd
  | doomed h => exact absurd hs h.not_sound

end XvcSupport.AxisToJtag
