import XvcSupport.LocalFrames

namespace XvcSupport.AxisToJtag

open AxisToJtagPkg AxisToJtagCore JtagSerDesCore

variable {g : Generics} {clkDiv2 : ℕ} {tap : Tap} {s : Dev g} {ev : Bool × Bool}
  {fw : Fw g.W} {all : List (List (BitVec g.W))}

/-- `P_RAM` reads a word that the memory has, or does not read. -/
def Dev.ReadsInside (s : Dev g) (ev : Bool × Bool) : Prop :=
  (s.comb ev.1 ev.2).tdoRen = true → s.r.ridx ≤ g.memDepth - 1

def PlaysFull (fw : Fw g.W) : List (BitVec g.W) → Prop
  | [] => False
  | data :: payload =>
    idle g fw.xid fw.memValid data payload.isEmpty = .replay ∧ fw.mem.length = g.memDepth

/-- No frame is answered from a full memory. -/
def NonePlaysFull (tap : Tap) : Fw g.W → List (List (BitVec g.W)) → Prop
  | _, [] => True
  | fw, f :: fs => ¬ PlaysFull fw f ∧ NonePlaysFull tap (serve g tap fw f).2 fs

theorem nonePlaysFull_append {fs fs' : List (List (BitVec g.W))} :
    NonePlaysFull tap fw (fs ++ fs') ↔
      NonePlaysFull tap fw fs ∧ NonePlaysFull tap (afterAll tap fw fs) fs' := by
  induction fs generalizing fw with
  | nil => simp [NonePlaysFull, afterAll]
  | cons f fs ih => simp [NonePlaysFull, ih, and_assoc, afterAll]

theorem exists_playsFull (h : ¬ NonePlaysFull tap fw all) :
    ∃ pre f fs, all = pre ++ f :: fs ∧ PlaysFull (afterAll tap fw pre) f := by
  induction all generalizing fw with
  | nil => exact absurd trivial h
  | cons f fs ih =>
    by_cases hfull : PlaysFull fw f
    · exact ⟨[], f, fs, rfl, hfull⟩
    · obtain ⟨pre, f', fs', rfl, hf'⟩ := ih fun hno => h ⟨hfull, hno⟩
      exact ⟨f :: pre, f', fs', rfl, hf'⟩

/-- `REPLAY_S` is entered from `IDLE_S` only. -/
theorem Dev.replay_from (h : (s.cycle clkDiv2 tap ev).r.state = .replay) :
    s.r.state = .idle ∨ s.r.state = .replay := by
  have hnext : (s.cycle clkDiv2 tap ev).r = s.r.next (s.comb ev.1 ev.2) s.memOut := rfl
  rw [hnext] at h
  cases hs : s.r.state with
  | idle => exact Or.inl rfl
  | replay => exact Or.inr rfl
  | sendRep =>
    simp only [Reg.next, hs, Reg.sendRep] at h
    split_ifs at h
  | waitStarted =>
    simp only [Reg.next, hs, Reg.waitStarted, sendHeaderNow] at h
    split_ifs at h
    simp [hs] at h
  | waitHdrReady =>
    simp only [Reg.next, hs, Reg.waitHdrReady] at h
    split_ifs at h
  | waitStopped =>
    simp only [Reg.next, hs, Reg.waitStopped] at h
    split_ifs at h

theorem Dev.replay_widx (h : s.r.state = .replay) :
    (s.cycle clkDiv2 tap ev).r.widx = s.r.widx := by
  have hnext : (s.cycle clkDiv2 tap ev).r = s.r.replay (s.comb ev.1 ev.2) s.memOut := by
    simp [Dev.cycle, Reg.next, h]
  rw [hnext, Reg.replay_eq]

theorem AtIdle.replay_widx {fs : List (List (BitVec g.W))} (h : AtIdle s fw fs)
    (hne : ∀ f ∈ fs, f ≠ []) (hno : NonePlaysFull tap fw fs)
    (hreplay : (s.cycle clkDiv2 tap ev).r.state = .replay) :
    (s.cycle clkDiv2 tap ev).r.widx < g.memDepth := by
  cases hv : (s.mAxisReq ev.1).tValid with
  | false =>
    have hat : AtIdle (s.cycle clkDiv2 tap ev) fw fs := h.wait hv
    rw [hat.state] at hreplay
    cases hreplay
  | true =>
    cases fs with
    | nil => simp [Dev.mAxisReq, h.src, Axis.init] at hv
    | cons f fs =>
      cases f with
      | nil => exact absurd rfl (hne [] (by simp))
      | cons data payload =>
        cases hloc : (idle g fw.xid fw.memValid data payload.isEmpty).isLocal with
        | true =>
          have hat : AtSendRep (s.cycle clkDiv2 tap ev) (serve g tap fw (data :: payload)).2 fs
              (localReply (idle g fw.xid fw.memValid data payload.isEmpty) data) true
              (data :: payload) := h.answer hv hloc
          rw [hat.state] at hreplay
          cases hreplay
        | false =>
          cases hdec : idle g fw.xid fw.memValid data payload.isEmpty with
          | execute =>
            have hat : AtStart (s.cycle clkDiv2 tap ev) fw fs data payload := h.execute hv hdec
            rw [hat.state] at hreplay
            cases hreplay
          | replay =>
            have hat : AtReplay (s.cycle clkDiv2 tap ev) fw fs data 0 (data :: payload) :=
              h.replay hv hdec
            have hle := hat.stores.le hat.memValid
            have hfull : fw.mem.length ≠ g.memDepth := fun hfull => hno.1 ⟨hdec, hfull⟩
            rw [hat.stores.widx hat.memValid]
            omega
          | _ => simp [hdec, Decision.isLocal] at hloc

/-- The entity is in a stage, and an answer that it plays back does not fill the memory. -/
structure Bounded (clkDiv2 : ℕ) (tap : Tap) (all : List (List (BitVec g.W))) (s : Dev g) :
    Prop where
  stage : ∃ n, DevAt clkDiv2 tap (Fw.init g.W) all n s
  widx : s.r.state = .replay → s.r.widx < g.memDepth

theorem Bounded.next (hD : 0 < clkDiv2) (hfit : ∀ f ∈ all, Fits g f) (hs : s.Sound ev)
    (hno : NonePlaysFull tap (Fw.init g.W) all) (h : Bounded clkDiv2 tap all s) :
    Bounded clkDiv2 tap all (s.cycle clkDiv2 tap ev) := by
  obtain ⟨n, hat⟩ := h.stage
  obtain ⟨n', hat', -⟩ := hat.advances hD hs (hat.inRange hfit hs)
  refine ⟨⟨n', hat'⟩, ?_⟩
  intro hreplay
  rcases Dev.replay_from hreplay with hst | hst
  · obtain ⟨fw, fs, hidle, hd⟩ := hat.at_idle hst
    obtain ⟨served, hall, -, hafter⟩ := hd.served
    rw [hall, nonePlaysFull_append, hafter] at hno
    exact hidle.replay_widx hd.ne_nil hno.2 hreplay
  · rw [Dev.replay_widx hst]
    exact h.widx hst

theorem Bounded.readsInside (hdepth : 1 ≤ g.memDepth) (h : Bounded clkDiv2 tap all s) :
    s.ReadsInside ev := by
  intro _
  obtain ⟨n, hat⟩ := h.stage
  cases hat with
  | idle h => simp [h.ridx]
  | sendRep h => simp [h.ridx]
  | start h => simp [h.ridx]
  | busy h => simp [h.ridx]
  | doomed h => simp [h.ridx]
  | replay hr =>
    have hlt := h.widx hr.state
    rw [hr.stores.widx hr.memValid] at hlt
    rw [hr.ridx]
    split_ifs <;> omega

section Reads

variable {bufMem : ℕ → BitVec g.W} {memOut : BitVec g.W} {evs : ℕ → Bool × Bool}

theorem Dev.run_readsInside (hdepth : 1 ≤ g.memDepth) (hD : 0 < clkDiv2)
    (hall : ∀ f ∈ all, f ≠ []) (hfit : ∀ f ∈ all, Fits g f)
    (hs : ∀ t, (Dev.run clkDiv2 tap all bufMem memOut evs t).Sound (evs t))
    (hno : NonePlaysFull tap (Fw.init g.W) all) (t : ℕ) :
    (Dev.run clkDiv2 tap all bufMem memOut evs t).ReadsInside (evs t) := by
  have hbound : Bounded clkDiv2 tap all (Dev.run clkDiv2 tap all bufMem memOut evs t) := by
    induction t with
    | zero => exact ⟨DevAt.init hall, fun hst => by cases hst⟩
    | succ t ih =>
      rw [Dev.run, runAt_succ]
      exact ih.next hD hfit (hs t) hno
  exact hbound.readsInside hdepth

end Reads

/-- The entity with more words behind those that the master has still to send. -/
def Dev.extend (s : Dev g) (rest : List (BitVec g.W × Bool)) (offer : Bool) : Dev g :=
  { s with src := s.src ++ rest, offer := offer }

variable {rest : List (BitVec g.W × Bool)} {offer : Bool}

theorem Dev.sound_of_extend (h : (s.extend rest offer).Sound ev)
    (hoffer : s.src ≠ [] → offer = s.offer) : s.Sound ev := by
  refine ⟨fun ⟨hst, hrun, hlast⟩ => ?_, h.2⟩
  by_cases hsrc : s.src = []
  · simp [Dev.mAxisReq, hsrc, Axis.init] at hlast
  · obtain ⟨w, ws, hs⟩ := List.exists_cons_of_ne_nil hsrc
    have hm : (s.extend rest offer).mAxisReq ev.1 = s.mAxisReq ev.1 := by
      simp [Dev.mAxisReq, Dev.extend, hs, hoffer hsrc]
    exact h.1 ⟨hst, hrun, hm ▸ hlast⟩

theorem Dev.extend_cycle (hsrc : s.src ≠ []) (hoffer : offer = s.offer) :
    (s.extend rest offer).cycle clkDiv2 tap ev =
      (s.cycle clkDiv2 tap ev).extend rest (s.cycle clkDiv2 tap ev).offer := by
  obtain ⟨w, ws, hs⟩ := List.exists_cons_of_ne_nil hsrc
  have hm : (s.extend rest offer).mAxisReq ev.1 = s.mAxisReq ev.1 := by
    simp [Dev.mAxisReq, Dev.extend, hs, hoffer]
  have hx : (s.extend rest offer).reqXfer ev.1 = s.reqXfer ev.1 := by
    rw [Dev.reqXfer, hm]
    rfl
  have hc : (s.extend rest offer).comb ev.1 ev.2 = s.comb ev.1 ev.2 := by
    simp only [Dev.comb, hm, hx]
    rfl
  have htdi : (s.extend rest offer).mTdi ev.1 = s.mTdi ev.1 := by
    rw [Dev.mTdi, hm]
    rfl
  simp only [Dev.cycle, hc, htdi, hm, hx]
  simp only [Dev.extend, hs]
  split_ifs <;> rfl

theorem DevAt.drained {fw0 : Fw g.W} {n : ℕ} (h : DevAt clkDiv2 tap fw0 all n s)
    (hsrc : s.src = []) : s.r.passTdi = false ∧ s.r.ackInput = false := by
  have hrem : ∀ {rem : List (BitVec g.W)} {fs : List (List (BitVec g.W))},
      s.src = beats rem ++ fs.flatMap beats → rem = [] := by
    intro rem fs heq
    rw [hsrc] at heq
    exact beats_eq_nil.mp (List.append_eq_nil_iff.mp heq.symm).1
  cases h with
  | idle h => exact ⟨h.passTdi, h.ackInput⟩
  | sendRep h =>
    refine ⟨h.passTdi, ?_⟩
    rcases h.flow with ⟨-, -, hne⟩ | ⟨-, -, hone, -⟩ | ⟨hack, -⟩
    · exact absurd (hrem h.src) hne
    · simp [hrem h.src] at hone
    · exact hack
  | start h => exact absurd (hrem h.src) (by simp)
  | busy h =>
    have hdrop := List.drop_eq_nil_iff.mp (hrem h.src)
    exact ⟨by rw [h.passTdi]; exact decide_eq_false (by omega), h.ackInput⟩
  | doomed h =>
    have hdrop := List.drop_eq_nil_iff.mp (hrem h.src)
    exact ⟨by rw [h.passTdi]; exact decide_eq_false (by omega), h.ackInput⟩
  | replay h => exact ⟨h.passTdi, by rw [h.ackInput, hrem h.src]; rfl⟩

theorem Dev.extend_cycle_nil (hpass : s.r.passTdi = false)
    (hack : s.r.ackInput = false) (hst : s.r.state ≠ .idle) :
    ∃ o, (s.extend rest offer).cycle clkDiv2 tap ev = (s.cycle clkDiv2 tap ev).extend rest o := by
  have hloc : s.sAxisReqLoc = false := by simp [Dev.sAxisReqLoc, hpass, hack]
  have hloc' : (s.extend rest offer).sAxisReqLoc = false := hloc
  have hx : s.reqXfer ev.1 = false := by rw [Dev.reqXfer, hloc, Bool.and_false]
  have hx' : (s.extend rest offer).reqXfer ev.1 = false := by
    rw [Dev.reqXfer, hloc', Bool.and_false]
  have hr : s.r.next ((s.extend rest offer).comb ev.1 ev.2) s.memOut =
      s.r.next (s.comb ev.1 ev.2) s.memOut := by
    cases hs : s.r.state with
    | idle => exact absurd hs hst
    | _ =>
      simp only [Reg.next, hs, Reg.sendRep, Reg.waitStarted, Reg.waitHdrReady, Reg.waitStopped,
        Reg.replay, Dev.comb, hx, hx', Bool.false_and, Bool.and_false]
      rfl
  have hcore : s.core.next ((s.extend rest offer).mTdi ev.1) (s.sTdo ev.2) s.ser =
      s.core.next (s.mTdi ev.1) (s.sTdo ev.2) s.ser := by
    apply AxisToJtagCore.Reg.next_of_no_word
    · exact Dev.mTdi_of_not (s := s.extend rest offer) hpass ev.1
    · exact Dev.mTdi_of_not hpass ev.1
  refine ⟨((s.extend rest offer).mAxisReq ev.1).tValid, ?_⟩
  have hoffer : (((s.extend rest offer).mAxisReq ev.1).tValid &&
      !(s.extend rest offer).reqXfer ev.1) = ((s.extend rest offer).mAxisReq ev.1).tValid := by
    rw [hx', Bool.not_false, Bool.and_true]
  have hleft : (if (s.extend rest offer).reqXfer ev.1 then (s.extend rest offer).src.tail
      else (s.extend rest offer).src) = (if s.reqXfer ev.1 then s.src.tail else s.src) ++ rest := by
    rw [hx, hx']
    rfl
  rw [Dev.cycle, Dev.cycle, Dev.extend, Dev.mk.injEq]
  exact ⟨hr, rfl, rfl, rfl, hcore, rfl, hleft, hoffer, rfl, rfl⟩

theorem AtIdle.extend (h : AtIdle s fw []) (fs : List (List (BitVec g.W))) (offer : Bool) :
    AtIdle (s.extend (fs.flatMap beats) offer) fw fs := by
  have hsrc : s.src = [] := h.src
  refine ⟨h.state, h.reply, h.ackInput, h.passTdo, h.passTdi, h.ridx, ?_, ?_, ?_⟩
  · have hq := h.quiet
    exact ⟨hq.core, hq.tdiValid, hq.tdoValid, hq.running, hq.ser, hq.tck, hq.lastBit, hq.oValid,
      hq.iReady, hq.hist⟩
  · have hst := h.stores
    exact ⟨hst.xid, hst.memValid, hst.widx, hst.pos, hst.le, hst.mem⟩
  · rw [Dev.extend, hsrc]
    rfl

theorem DevAt.at_end {pre : List (List (BitVec g.W))} {n : ℕ}
    (h : DevAt clkDiv2 tap (Fw.init g.W) pre n s) (hst : s.r.state = .idle) (hsrc : s.src = []) :
    AtIdle s (afterAll tap (Fw.init g.W) pre) [] := by
  obtain ⟨fw, fs, hat, hd⟩ := h.at_idle hst
  have hfs : fs = [] := by
    cases fs with
    | nil => rfl
    | cons f fs =>
      have hf := hd.ne_nil f (by simp)
      have hat' := hat.src
      rw [hsrc, List.flatMap_cons] at hat'
      exact absurd (beats_eq_nil.mp (List.append_eq_nil_iff.mp hat'.symm).1) hf
  subst hfs
  obtain ⟨served, hall, -, hafter⟩ := hd.served
  rw [List.append_nil] at hall
  rw [hall, hafter]
  exact hat

section Boundary

variable {bufMem : ℕ → BitVec g.W} {memOut : BitVec g.W} {evs : ℕ → Bool × Bool}
  {pre post : List (List (BitVec g.W))}

variable (hD : 0 < clkDiv2) (hne : ∀ f ∈ pre, f ≠ []) (hfit : ∀ f ∈ pre, Fits g f)
  (hs : ∀ t, (Dev.run clkDiv2 tap (pre ++ post) bufMem memOut evs t).Sound (evs t))

include hD hne hfit hs

/-- Up to the first look at the frames `post` the entity does what it does with the frames `pre`
alone. -/
theorem Dev.run_extend (t : ℕ) :
    (∃ u, AtIdle (Dev.run clkDiv2 tap (pre ++ post) bufMem memOut evs u)
      (afterAll tap (Fw.init g.W) pre) post) ∨
    ∃ o, Dev.run clkDiv2 tap (pre ++ post) bufMem memOut evs t =
        (Dev.run clkDiv2 tap pre bufMem memOut evs t).extend (post.flatMap beats) o ∧
      ((Dev.run clkDiv2 tap pre bufMem memOut evs t).src ≠ [] →
        o = (Dev.run clkDiv2 tap pre bufMem memOut evs t).offer) ∧
      ∃ n, DevAt clkDiv2 tap (Fw.init g.W) pre n (Dev.run clkDiv2 tap pre bufMem memOut evs t) := by
  induction t with
  | zero =>
    refine Or.inr ⟨false, ?_, fun _ => rfl, DevAt.init hne⟩
    simp [Dev.run, Dev.init, Dev.extend]
  | succ t ih =>
    rcases ih with hdone | ⟨o, heq, ho, n, hat⟩
    · exact Or.inl hdone
    have hfull : Dev.run clkDiv2 tap (pre ++ post) bufMem memOut evs (t + 1) =
        (Dev.run clkDiv2 tap (pre ++ post) bufMem memOut evs t).cycle clkDiv2 tap (evs t) :=
      runAt_succ t
    have hcycle : Dev.run clkDiv2 tap pre bufMem memOut evs (t + 1) =
        (Dev.run clkDiv2 tap pre bufMem memOut evs t).cycle clkDiv2 tap (evs t) := runAt_succ t
    have hsound := hs t
    rw [heq] at hsound
    have hsound' := Dev.sound_of_extend hsound ho
    have hnext : ∃ n, DevAt clkDiv2 tap (Fw.init g.W) pre n
        (Dev.run clkDiv2 tap pre bufMem memOut evs (t + 1)) := by
      obtain ⟨n', hat', -⟩ := hat.advances hD hsound' (hat.inRange hfit hsound')
      exact ⟨n', hcycle ▸ hat'⟩
    -- what comes later is seen when the words of `pre` are used up and the entity looks again
    by_cases hsrc : (Dev.run clkDiv2 tap pre bufMem memOut evs t).src = []
    · by_cases hst : (Dev.run clkDiv2 tap pre bufMem memOut evs t).r.state = .idle
      · refine Or.inl ⟨t, ?_⟩
        rw [heq]
        exact (hat.at_end hst hsrc).extend post o
      · obtain ⟨hpass, hack⟩ := hat.drained hsrc
        have hcross : ∃ o', ((Dev.run clkDiv2 tap pre bufMem memOut evs t).extend
              (post.flatMap beats) o).cycle clkDiv2 tap (evs t) =
            ((Dev.run clkDiv2 tap pre bufMem memOut evs t).cycle clkDiv2 tap (evs t)).extend
              (post.flatMap beats) o' := Dev.extend_cycle_nil hpass hack hst
        obtain ⟨o', ho'⟩ := hcross
        refine Or.inr ⟨o', by rw [hfull, hcycle, heq, ho'], fun hne => absurd ?_ hne, hnext⟩
        rw [hcycle]
        simp [Dev.cycle, hsrc]
    · refine Or.inr ⟨_, ?_, fun _ => rfl, hnext⟩
      rw [hfull, hcycle, heq, Dev.extend_cycle hsrc (ho hsrc)]

theorem Dev.run_reaches (hfair : Fair evs) :
    ∃ u, AtIdle (Dev.run clkDiv2 tap (pre ++ post) bufMem memOut evs u)
      (afterAll tap (Fw.init g.W) pre) post := by
  by_contra hno
  have hrun := fun t => (Dev.run_extend hD hne hfit hs t).resolve_left hno
  have hgood : ∀ t, (Dev.run clkDiv2 tap pre bufMem memOut evs t).Sound (evs t) ∧
      (Dev.run clkDiv2 tap pre bufMem memOut evs t).InRange (evs t) := by
    intro t
    obtain ⟨o, heq, ho, n, hat⟩ := hrun t
    have hsound := hs t
    rw [heq] at hsound
    have hsound' := Dev.sound_of_extend hsound ho
    exact ⟨hsound', hat.inRange hfit hsound'⟩
  obtain ⟨T, hT⟩ := Dev.run_rests hD hne (fun t => (hgood t).1) (fun t => (hgood t).2) hfair
  obtain ⟨o, heq, -⟩ := hrun T
  obtain ⟨fw, hidle, hd, -⟩ := (hT T le_rfl).end_idle (hgood T).1
  have hend := (hT T le_rfl).at_end hidle.state hidle.src
  refine hno ⟨T, ?_⟩
  rw [heq]
  exact hend.extend post o

omit hD hne hfit hs

variable {data : BitVec g.W} {payload : List (BitVec g.W)} {fs : List (List (BitVec g.W))}

theorem AtReplay.reaches (hfair : Fair evs) {s0 : Dev g} {u : ℕ} {rem : List (BitVec g.W)}
    (h : AtReplay (runAt (Dev.cycle clkDiv2 tap) s0 evs u) fw fs data 0 rem) (k : ℕ)
    (hk : k ≤ fw.mem.length) :
    ∃ t rem', AtReplay (runAt (Dev.cycle clkDiv2 tap) s0 evs t) fw fs data k rem' ∧
      (runAt (Dev.cycle clkDiv2 tap) s0 evs t).locConsumed (evs t).2 = true := by
  have hwait : ∀ {k t}, k ≤ fw.mem.length →
      (∃ rem', AtReplay (runAt (Dev.cycle clkDiv2 tap) s0 evs t) fw fs data k rem') →
      ∃ t' ≥ t, (∃ rem', AtReplay (runAt (Dev.cycle clkDiv2 tap) s0 evs t') fw fs data k rem') ∧
        (runAt (Dev.cycle clkDiv2 tap) s0 evs t').locConsumed (evs t').2 = true := by
    intro k t hk hat
    refine runAt_reaches (P := fun s => ∃ rem', AtReplay s fw fs data k rem')
      (Q := fun s ev => s.locConsumed ev.2 = true) (E := fun ev => ev.2 = true) ?_ ?_ hfair.2 hat
    · rintro s ev ⟨rem', hs⟩ hno
      have hloc : s.locConsumed ev.2 = false := by simpa using hno
      have hopen := (hs.next clkDiv2 tap ev).2
      rw [hloc, Bool.toNat_false, Nat.add_zero] at hopen
      exact ⟨_, hopen fun hcon => absurd hcon.2 (by omega)⟩
    · rintro s ev ⟨rem', hs⟩ hrdy
      simp [Dev.locConsumed, hs.passTdo, hs.valid, hk, AxiStreamSelector.rdyLoc, hrdy]
  induction k with
  | zero =>
    obtain ⟨t, -, ⟨rem', hat⟩, hloc⟩ := hwait hk ⟨rem, h⟩
    exact ⟨t, rem', hat, hloc⟩
  | succ k ih =>
    obtain ⟨t, rem', hat, hloc⟩ := ih (by omega)
    have hopen := (hat.next clkDiv2 tap (evs t)).2
    rw [hloc, Bool.toNat_true] at hopen
    have hnext : ∃ rem'', AtReplay (runAt (Dev.cycle clkDiv2 tap) s0 evs (t + 1)) fw fs data
        (k + 1) rem'' := by
      rw [runAt_succ]
      exact ⟨_, hopen fun hcon => absurd hcon.2 (by omega)⟩
    obtain ⟨t', -, ⟨rem'', hat'⟩, hloc'⟩ := hwait hk hnext
    exact ⟨t', rem'', hat', hloc'⟩

theorem AtIdle.reads_outside (hfair : Fair evs) {s0 : Dev g} {u : ℕ}
    (h : AtIdle (runAt (Dev.cycle clkDiv2 tap) s0 evs u) fw ((data :: payload) :: fs))
    (hdec : idle g fw.xid fw.memValid data payload.isEmpty = .replay)
    (hfull : fw.mem.length = g.memDepth) :
    ∃ t, ¬ (runAt (Dev.cycle clkDiv2 tap) s0 evs t).ReadsInside (evs t) := by
  have hwait : ∀ (s : Dev g) ev, AtIdle s fw ((data :: payload) :: fs) →
      ¬ (s.mAxisReq ev.1).tValid = true →
      AtIdle (s.cycle clkDiv2 tap ev) fw ((data :: payload) :: fs) := by
    intro s ev hs hno
    exact hs.wait (by simpa using hno)
  have hoffer : ∀ (s : Dev g) (ev : Bool × Bool), AtIdle s fw ((data :: payload) :: fs) →
      ev.1 = true → (s.mAxisReq ev.1).tValid = true := by
    intro s ev hs hvld
    simp [Dev.mAxisReq, hs.src, hvld]
  obtain ⟨t, -, hat, hv⟩ := runAt_reaches (E := fun ev => ev.1 = true) hwait hoffer hfair.1 h
  have hreplay : AtReplay (runAt (Dev.cycle clkDiv2 tap) s0 evs (t + 1)) fw fs data 0
      (data :: payload) := by
    rw [runAt_succ]
    exact hat.replay hv hdec
  have hpos := hreplay.stores.pos hreplay.memValid
  obtain ⟨t', rem, hlast, hloc⟩ :=
    AtReplay.reaches hfair hreplay (fw.mem.length - 1) (Nat.sub_le _ _)
  refine ⟨t', fun hinside => ?_⟩
  have hread : ((runAt (Dev.cycle clkDiv2 tap) s0 evs t').comb (evs t').1 (evs t').2).tdoRen =
      true := by
    simp [Dev.comb, hlast.state, hloc]
  have hle := hinside hread
  rw [hlast.ridx, if_pos (by omega)] at hle
  omega

/-- A full memory that is played back is read behind its end when both neighbours act again and
again. -/
theorem Dev.run_readsOutside (hD : 0 < clkDiv2) (hne : ∀ f ∈ all, f ≠ [])
    (hfit : ∀ f ∈ all, Fits g f)
    (hs : ∀ t, (Dev.run clkDiv2 tap all bufMem memOut evs t).Sound (evs t)) (hfair : Fair evs)
    (hplays : ¬ NonePlaysFull tap (Fw.init g.W) all) :
    ∃ t, ¬ (Dev.run clkDiv2 tap all bufMem memOut evs t).ReadsInside (evs t) := by
  obtain ⟨pre, f, fs, rfl, hfull⟩ := exists_playsFull hplays
  cases f with
  | nil => exact absurd hfull id
  | cons data payload =>
    obtain ⟨u, hidle⟩ := Dev.run_reaches hD (fun f hf => hne f (by simp [hf]))
      (fun f hf => hfit f (by simp [hf])) hs hfair
    exact hidle.reads_outside hfair hfull.1 hfull.2

/-- In runs on complete frames the reads stay inside the memory when no answer that fills it is
played back, and when both neighbours act again and again only then. -/
theorem replay_inside_iff {a : ℕ} (ha : g.W = 2 ^ a) (hdepth : 1 ≤ g.memDepth)
    (hD : 0 < clkDiv2) (tap : Tap) (all : List (List (BitVec g.W)))
    (hT : AllTidy tap (Fw.init g.W) all) (bufMem : ℕ → BitVec g.W) (memOut : BitVec g.W)
    (evs : ℕ → Bool × Bool) :
    let run := Dev.run clkDiv2 tap all bufMem memOut evs
    (NonePlaysFull tap (Fw.init g.W) all → ∀ t, (run t).ReadsInside (evs t)) ∧
      (Fair evs → ((∀ t, (run t).ReadsInside (evs t)) ↔
        NonePlaysFull tap (Fw.init g.W) all)) := by
  intro run
  have hne : ∀ f ∈ all, f ≠ [] := fun f hf => hT.ne_nil hf
  have hfit : ∀ f ∈ all, Fits g f := fun f hf => fits_of_width ha (hne f hf)
  have hs : ∀ t, (run t).Sound (evs t) := fun t => (Dev.run_sound hD hfit hT t).1
  have hinside : NonePlaysFull tap (Fw.init g.W) all → ∀ t, (run t).ReadsInside (evs t) :=
    fun hno => Dev.run_readsInside hdepth hD hne hfit hs hno
  refine ⟨hinside, fun hfair => ⟨fun hread => ?_, hinside⟩⟩
  by_contra hcon
  obtain ⟨t, hout⟩ := Dev.run_readsOutside hD hne hfit hs hfair hcon
  exact hout (hread t)

/-- A target with four octets to the word and room for one word. -/
def oneWord : Generics := .ofSize 4 1 (by decide)

/-- A request of eight bits is repeated: its answer fills the memory. -/
theorem replay_outside :
    ∃ t < 200, ¬ (Dev.run (g := oneWord) 1 (fun _ _ _ => false)
      [[0x10100007, 1, 2], [0x10100007, 1, 2]] (fun _ => 0) 0 (fun _ => (true, true))
      t).ReadsInside (true, true) := by
  simp only [Dev.ReadsInside]
  decide +kernel

/-- The request is not repeated. -/
theorem replay_inside_once :
    (Dev.run (g := oneWord) 1 (fun _ _ _ => false) [[0x10100007, 1, 2]] (fun _ => 0) 0
      (fun _ => (true, true)) 20).ReadsInside (true, true) := by
  have hT : AllTidy (g := oneWord) (fun _ _ _ => false) (Fw.init _) [[0x10100007, 1, 2]] :=
    ⟨fun _ => Or.inl rfl, trivial⟩
  have hno : NonePlaysFull (g := oneWord) (fun _ _ _ => false) (Fw.init _)
      [[0x10100007, 1, 2]] := ⟨fun h => absurd h.2 (by decide), trivial⟩
  exact (replay_inside_iff (g := oneWord) (a := 5) rfl (by decide) one_pos (fun _ _ _ => false)
    [[0x10100007, 1, 2]] hT (fun _ => 0) 0 (fun _ => (true, true))).1 hno 20

end Boundary

end XvcSupport.AxisToJtag
