import XvcSupport.Progress

namespace XvcSupport.AxisToJtag

open AxisToJtagPkg AxisToJtagCore JtagSerDesCore

variable {g : Generics} {clkDiv2 : ℕ} {tap : Tap} {s : Dev g} {ev : Bool × Bool}
  {fw : Fw g.W} {fs : List (List (BitVec g.W))} {data : BitVec g.W}
  {payload : List (BitVec g.W)}

/-- If the frame starts the core, it does not break off within a pair that is due after complete
ones. -/
def TidyAt (fw : Fw g.W) : List (BitVec g.W) → Prop
  | [] => False
  | data :: payload => idle g fw.xid fw.memValid data payload.isEmpty = .execute →
      payload.length % 2 = 0 ∨ payload.length = 1 ∨
        2 * wordCount g.W ((getLen data).toNat + 1) ≤ payload.length

/-- None of the frames breaks off within a pair. -/
def AllTidy (tap : Tap) : Fw g.W → List (List (BitVec g.W)) → Prop
  | _, [] => True
  | fw, f :: fs => TidyAt fw f ∧ AllTidy tap (serve g tap fw f).2 fs

theorem TidyAt.not_aborts (h : TidyAt fw (data :: payload))
    (hex : idle g fw.xid fw.memValid data payload.isEmpty = .execute) :
    ¬ (taskOf fw data payload).Aborts := by
  rintro ⟨hpos, hlen, hlt⟩
  have hcount := (Task.lt_wordCount g.W_pos).mpr hlt
  have hlen : payload.length = 2 * (taskOf fw data payload).count + 1 := hlen
  rcases h hex with h | h | h
  · omega
  · omega
  · have : (taskOf fw data payload).total = (getLen data).toNat + 1 := rfl
    rw [this] at hcount
    omega

theorem allTidy_append {fs fs' : List (List (BitVec g.W))} :
    AllTidy tap fw (fs ++ fs') ↔ AllTidy tap fw fs ∧ AllTidy tap (afterAll tap fw fs) fs' := by
  induction fs generalizing fw with
  | nil => simp [AllTidy, afterAll]
  | cons f fs ih => simp [AllTidy, ih, and_assoc, afterAll]

theorem AllTidy.ne_nil (h : AllTidy tap fw fs) {f : List (BitVec g.W)} (hf : f ∈ fs) :
    f ≠ [] := by
  induction fs generalizing fw with
  | nil => simp at hf
  | cons f' fs ih =>
    rcases List.mem_cons.mp hf with rfl | hf
    · rintro rfl
      exact h.1
    · exact ih h.2 hf

theorem wordCount_mono {W : ℕ} {m n : ℕ} (h : m ≤ n) : wordCount W m ≤ wordCount W n :=
  Nat.div_le_div_right (by omega)

theorem fits_of_width {a : ℕ} (ha : g.W = 2 ^ a) {f : List (BitVec g.W)} (hf : f ≠ []) :
    Fits g f := by
  cases f with
  | nil => exact absurd rfl hf
  | cons data payload =>
    intro hc
    rcases (checkLen_iff g ha data).mp hc with h0 | hle
    · exact Or.inl h0
    · exact Or.inr ((wordCount_mono (Nat.min_le_left _ _)).trans hle)

variable {fw0 : Fw g.W} {all : List (List (BitVec g.W))}

theorem Quiet.sound {hist : List Edge} (h : Quiet s hist) : s.Sound ev := by
  constructor <;> rintro ⟨hst, -⟩ <;> rw [h.core] at hst <;> exact absurd hst (by simp)

theorem AtBusy.sound {ph : Phase} {o : ℕ} {full : Bool} {pos : Pos}
    (h : AtBusy clkDiv2 tap s fw fs data payload ph o full pos)
    (hno : ¬ (taskOf fw data payload).Aborts) : s.Sound ev := by
  have hcore := h.joint.core
  have hle := h.joint.le_handed
  have hge := h.joint.handed_le
  have hreq : ∀ c, ph = .getTms c → 2 * c < payload.length →
      (s.mAxisReq ev.1).tLast = true → payload.length = 2 * c + 1 := by
    rintro c rfl hl hlast
    rw [h.mAxisReq_eq hl] at hlast
    exact (of_decide_eq_true hlast).symm
  simp only [Dev.Sound]
  generalize s.core = r at hcore
  cases hcore with
  | @getTms c _ _ _ _ _ _ _ _ hc hl hrun htot hend =>
    refine ⟨?_, by simp⟩
    rintro ⟨-, hr, hlast⟩ heq
    have hcpos : 0 < c := by simpa [hrun] using hr
    simp only [Phase.handed] at hle hge
    rw [ofNat_two_inj hle (by omega)] at heq
    have := hend (hreq c rfl hl hlast)
    omega
  | abort hab => exact absurd hab hno
  | doomed hab => exact absurd hab hno
  | final _ hst => rcases hst with rfl | rfl <;> simp
  | abortWait hab => exact absurd hab hno
  | _ => simp

theorem Follows.tidyAt (hT : AllTidy tap fw0 all) {f : List (BitVec g.W)}
    (hc : Follows tap fw0 all fw f fs) : TidyAt fw f := by
  obtain ⟨served, rfl, rfl⟩ := hc
  exact (allTidy_append.mp hT).2.1

theorem DevAt.sound (hT : AllTidy tap fw0 all) {n : ℕ}
    (h : DevAt clkDiv2 tap fw0 all n s) : s.Sound ev := by
  cases h with
  | idle h => exact h.quiet.sound
  | sendRep h => exact h.quiet.sound
  | start h => exact h.quiet.sound
  | busy h hc => exact h.sound ((hc.tidyAt hT).not_aborts h.exec)
  | replay h => exact h.quiet.sound
  | doomed h hc => exact h.sound ((hc.tidyAt hT).not_aborts h.exec)

variable {bufMem : ℕ → BitVec g.W} {memOut : BitVec g.W} {evs : ℕ → Bool × Bool}

variable (clkDiv2 tap bufMem memOut all evs) in
/-- The entity `t` cycles after reset, with the frames `all` to be sent to it. -/
def Dev.run (t : ℕ) : Dev g :=
  runAt (Dev.cycle clkDiv2 tap) (Dev.init g bufMem memOut (all.flatMap beats)) evs t

/-- The master offers words and the slave takes words again and again. -/
def Fair (evs : ℕ → Bool × Bool) : Prop :=
  (∀ t, ∃ t' ≥ t, (evs t').1 = true) ∧ ∀ t, ∃ t' ≥ t, (evs t').2 = true

theorem AtIdle.init : AtIdle (Dev.init g bufMem memOut (all.flatMap beats)) (Fw.init g.W) all := by
  refine ⟨rfl, rfl, rfl, rfl, rfl, rfl, ?_, ?_, rfl⟩
  · constructor <;> rfl
  · constructor <;> simp [Dev.init, Reg.init, Fw.init]

theorem DevAt.init (hall : ∀ f ∈ all, f ≠ []) : ∃ n, DevAt clkDiv2 tap (Fw.init g.W) all n
    (Dev.init g bufMem memOut (all.flatMap beats)) :=
  ⟨_, .idle AtIdle.init ⟨⟨[], rfl, rfl, rfl⟩, hall⟩⟩

theorem DevAt.run (hD : 0 < clkDiv2) (hall : ∀ f ∈ all, f ≠ [])
    (hs : ∀ t, (Dev.run clkDiv2 tap all bufMem memOut evs t).Sound (evs t))
    (hin : ∀ t, (Dev.run clkDiv2 tap all bufMem memOut evs t).InRange (evs t)) (t : ℕ) :
    ∃ n, DevAt clkDiv2 tap (Fw.init g.W) all n (Dev.run clkDiv2 tap all bufMem memOut evs t) := by
  refine runAt_invariant (C := fun s ev => s.Sound ev ∧ s.InRange ev)
    (P := fun s => ∃ n, DevAt clkDiv2 tap (Fw.init g.W) all n s) ?_ (DevAt.init hall)
    (fun u _ => ⟨hs u, hin u⟩)
  rintro s ev ⟨n, hat⟩ ⟨hsound, hrange⟩
  obtain ⟨n', hat', -⟩ := hat.advances hD hsound hrange
  exact ⟨n', hat'⟩

theorem DevAt.inRange (hfit : ∀ f ∈ all, Fits g f) {n : ℕ}
    (h : DevAt clkDiv2 tap fw0 all n s) (hs : s.Sound ev) : s.InRange ev := by
  intro hdepth hwen
  have hx : s.tdoXfer ev.2 = true ∧ s.r.passTdo = true := by simpa [Dev.comb] using hwen
  cases h with
  | idle h => exact absurd hx.2 (by simp [h.passTdo])
  | sendRep h => exact absurd hx.2 (by simp [h.passTdo])
  | start h => exact absurd hx.2 (by simp [h.passTdo])
  | replay h => exact absurd hx.2 (by simp [h.passTdo])
  | doomed h => exact absurd hs h.not_sound
  | @busy _ fw fs data payload ph o full pos h hc hne hnone hsave hd =>
    obtain ⟨hlt, -, -⟩ := h.word_of_xfer hne (h.fine hs) hx.1
    obtain ⟨served, hall, -⟩ := hc
    rw [(hsave hdepth).1]
    rcases hfit (data :: payload) (by simp [hall]) (payload_ne_nil h.exec).2 with h0 | hle
    · omega
    · rw [@taskOf_count g fw data payload] at hle
      omega

/-- When all frames fit, a sound run stays within the memory. -/
theorem Dev.run_inRange (hD : 0 < clkDiv2) (hall : ∀ f ∈ all, f ≠ []) (hfit : ∀ f ∈ all, Fits g f)
    (hs : ∀ t, (Dev.run clkDiv2 tap all bufMem memOut evs t).Sound (evs t)) (t : ℕ) :
    (Dev.run clkDiv2 tap all bufMem memOut evs t).InRange (evs t) := by
  have hat : ∃ n, DevAt clkDiv2 tap (Fw.init g.W) all n
      (Dev.run clkDiv2 tap all bufMem memOut evs t) := by
    refine runAt_invariant (C := Dev.Sound)
      (P := fun s => ∃ n, DevAt clkDiv2 tap (Fw.init g.W) all n s) ?_ (DevAt.init hall)
      (fun u _ => hs u)
    rintro s ev ⟨n, hat⟩ hsound
    obtain ⟨n', hat', -⟩ := hat.advances hD hsound (hat.inRange hfit hsound)
    exact ⟨n', hat'⟩
  obtain ⟨n, hat⟩ := hat
  exact hat.inRange hfit (hs t)

theorem Dev.run_sound (hD : 0 < clkDiv2) (hfit : ∀ f ∈ all, Fits g f)
    (hT : AllTidy tap (Fw.init g.W) all) (t : ℕ) :
    (Dev.run clkDiv2 tap all bufMem memOut evs t).Sound (evs t) ∧
      (Dev.run clkDiv2 tap all bufMem memOut evs t).InRange (evs t) := by
  have hat : ∃ n, DevAt clkDiv2 tap (Fw.init g.W) all n
      (Dev.run clkDiv2 tap all bufMem memOut evs t) := by
    refine runAt_invariant (C := fun _ _ => True)
      (P := fun s => ∃ n, DevAt clkDiv2 tap (Fw.init g.W) all n s) ?_
      (DevAt.init fun f hf => hT.ne_nil hf) (fun _ _ => trivial)
    rintro s ev ⟨n, hat⟩ -
    have hsound : s.Sound ev := hat.sound hT
    obtain ⟨n', hat', -⟩ := hat.advances hD hsound (hat.inRange hfit hsound)
    exact ⟨n', hat'⟩
  obtain ⟨n, hat⟩ := hat
  exact ⟨hat.sound hT, hat.inRange hfit (hat.sound hT)⟩

theorem edgesOf_append (bits bits' : List (Bool × Bool)) :
    edgesOf (bits ++ bits') = edgesOf bits ++ edgesOf bits' := by
  simp [edgesOf]

theorem histAt_mono {W : ℕ} (job : Job W) {q q' : ℕ} (h : q ≤ q') :
    job.histAt q <+: job.histAt q' := by
  obtain ⟨d, rfl⟩ := Nat.exists_eq_add_of_le h
  rw [Job.histAt, Job.histAt, List.range_add, List.map_append, edgesOf_append, ← List.append_assoc]
  exact List.prefix_append _ _

theorem At.hist_le {W : ℕ} {job : Job W} {pos : Pos} {r : JtagSerDesCore.Reg W}
    {h : List Edge} (hat : At job tap clkDiv2 pos r h) : h <+: job.histAt job.bits := by
  cases hat with
  | idle => exact histAt_mono job (Nat.min_le_right _ _)
  | low hf => exact histAt_mono job (job.lt_bits hf).le
  | @high j f _ _ _ hf =>
    have hq : j * W + f + 1 ≤ job.bits := job.lt_bits hf
    refine List.IsPrefix.trans ?_ (histAt_mono job hq)
    rw [Job.histAt_succ]
    simp
  | tail => exact histAt_mono job (Nat.min_le_right _ _)
  | @waiMore j _ _ _ hj =>
    have := job.lt_bits hj
    exact histAt_mono job (by omega)
  | waiEnd => exact histAt_mono job (Nat.min_le_right _ _)

theorem taskOf_histAt : (taskOf fw data payload).job.histAt (taskOf fw data payload).job.bits =
    fw.hist ++ edgesOf (shiftBits g data payload) := by
  have hbits : _ = List.map (taskOf fw data payload).job.bit _ :=
    shiftBits_eq (le_refl (shiftLen g data payload))
  rw [← shiftBits_length, List.take_length, shiftBits_length] at hbits
  rw [Job.histAt, taskOf_bits, ← hbits]
  rfl

theorem serve_execute_hist (hex : idle g fw.xid fw.memValid data payload.isEmpty = .execute) :
    (serve g tap fw (data :: payload)).2.hist =
      fw.hist ++ edgesOf (shiftBits g data payload) := by
  by_cases hlen : payload.length = 1
  · have h0 : shiftLen g data payload = 0 := by
      rw [shiftLen, pairs_length, hlen]
      simp
    rw [serve_early hex hlen, shiftBits, h0]
    simp [vecBits, edgesOf]
  · rw [serve_execute hex hlen]

theorem serve_hist_grows (f : List (BitVec g.W)) : fw.hist <+: (serve g tap fw f).2.hist := by
  cases f with
  | nil => exact List.prefix_rfl
  | cons data payload =>
    cases hdec : idle g fw.xid fw.memValid data payload.isEmpty with
    | execute =>
      rw [serve_execute_hist hdec]
      exact List.prefix_append _ _
    | _ => simp [serve, hdec]

theorem afterAll_hist_grows (fw : Fw g.W) (fs : List (List (BitVec g.W))) :
    fw.hist <+: (afterAll tap fw fs).hist := by
  induction fs generalizing fw with
  | nil => exact List.prefix_rfl
  | cons f fs ih => exact (serve_hist_grows f).trans (ih _)

theorem Due.beginning {due : List (BitVec g.W × Bool)} (hd : Due tap fw0 all s due fw fs) :
    s.out <+: answers tap fw0 all ∧ fw.hist <+: (afterAll tap fw0 all).hist := by
  obtain ⟨served, rfl, hsent, rfl⟩ := hd.served
  rw [answers_append, ← hsent, afterAll_append, Dev.sent]
  refine ⟨?_, afterAll_hist_grows _ _⟩
  simp only [List.append_assoc]
  exact List.prefix_append _ _

theorem DevAt.beginning {n : ℕ} (h : DevAt clkDiv2 tap fw0 all n s) (hs : s.Sound ev) :
    s.out <+: answers tap fw0 all ∧ s.hist <+: (afterAll tap fw0 all).hist := by
  cases h with
  | idle h hd => exact ⟨hd.beginning.1, by rw [h.quiet.hist]; exact hd.beginning.2⟩
  | sendRep h hd => exact ⟨hd.beginning.1, by rw [h.quiet.hist]; exact hd.beginning.2⟩
  | start h hc hd =>
    exact ⟨hd.beginning.1, by rw [h.quiet.hist]; exact (serve_hist_grows _).trans hd.beginning.2⟩
  | busy h hc hne hnone hsave hd =>
    refine ⟨hd.beginning.1, List.IsPrefix.trans ?_ hd.beginning.2⟩
    rw [serve_execute_hist h.exec, ← taskOf_histAt]
    exact At.hist_le h.joint.ser
  | replay h hd => exact ⟨hd.beginning.1, by rw [h.quiet.hist]; exact hd.beginning.2⟩
  | doomed h => exact absurd hs h.not_sound

/-- Words move or nobody is waited for. -/
def Dev.Moves (s : Dev g) (ev : Bool × Bool) : Prop := s.reqXfer ev.1 = true ∨ s.Helped ev

/-- A word that has been offered stays on offer, so the two neighbours need not act together. -/
theorem Dev.moves_often {s0 : Dev g} (hfair : Fair evs) (t : ℕ) :
    ∃ t' ≥ t, (runAt (Dev.cycle clkDiv2 tap) s0 evs t').Moves (evs t') := by
  by_contra! hcon
  obtain ⟨t1, ht1, hvld⟩ := hfair.1 t
  have hoffer : ∀ d, (runAt (Dev.cycle clkDiv2 tap) s0 evs (t1 + d + 1)).offer = true ∨
      (runAt (Dev.cycle clkDiv2 tap) s0 evs (t1 + d + 1)).src = [] := by
    intro d
    -- a word on offer stays on offer as long as nothing moves
    have hstep : ∀ u ≥ t, ((runAt (Dev.cycle clkDiv2 tap) s0 evs u).offer || (evs u).1) = true ∨
        (runAt (Dev.cycle clkDiv2 tap) s0 evs u).src = [] →
        (runAt (Dev.cycle clkDiv2 tap) s0 evs (u + 1)).offer = true ∨
        (runAt (Dev.cycle clkDiv2 tap) s0 evs (u + 1)).src = [] := by
      intro u hu h
      have hno := hcon u hu
      simp only [Dev.Moves, not_or, Bool.not_eq_true] at hno
      rw [runAt_succ]
      generalize runAt (Dev.cycle clkDiv2 tap) s0 evs u = s at h hno
      simp only [Dev.cycle, hno.1, Bool.false_eq_true, if_false, Bool.not_false, Bool.and_true]
      cases hsrc : s.src with
      | nil => exact Or.inr rfl
      | cons w ws => simpa [Dev.mAxisReq, hsrc] using h
    induction d with
    | zero => exact hstep t1 ht1 (Or.inl (by simp [hvld]))
    | succ d ih =>
      refine hstep (t1 + d + 1) (by omega) ?_
      rcases ih with h | h
      · exact Or.inl (by simp [h])
      · exact Or.inr h
  obtain ⟨t2, ht2, hrdy⟩ := hfair.2 (t1 + 1)
  obtain ⟨d, rfl⟩ := Nat.exists_eq_add_of_le ht2
  have hno := hcon (t1 + 1 + d) (by omega)
  have hoff := hoffer d
  rw [show t1 + d + 1 = t1 + 1 + d by omega] at hoff
  refine hno (Or.inr ⟨hrdy, ?_⟩)
  generalize runAt (Dev.cycle clkDiv2 tap) s0 evs (t1 + 1 + d) = s at hoff
  rcases hoff with h | h
  · cases hsrc : s.src with
    | nil => exact Or.inr rfl
    | cons w ws => exact Or.inl (by simp [Dev.mAxisReq, hsrc, h])
  · exact Or.inr h

theorem DevAt.end_idle (h : DevAt clkDiv2 tap fw0 all 0 s) (hs : s.Sound ev) :
    ∃ fw, AtIdle s fw [] ∧ Due tap fw0 all s [] fw [] ∧ s.streamBuf.tValid = false := by
  have hbud := budget_ge clkDiv2
  generalize hn : 0 = n at h
  cases h with
  | @idle _ fw fs h hd =>
    have hsrc : s.src = [] := by
      by_contra hcon
      have := Nat.mul_pos (List.length_pos_iff.mpr hcon) (show 0 < budget clkDiv2 by omega)
      rw [Nat.mul_assoc] at hn
      omega
    have hwait : s.streamBuf.tValid = false := by
      have h0 : s.waiting = 0 := by omega
      simpa [Dev.waiting] using h0
    have hfs : fs = [] := by
      cases fs with
      | nil => rfl
      | cons f fs =>
        have hf := hd.ne_nil f (by simp)
        cases f with
        | nil => exact absurd rfl hf
        | cons data payload =>
          rw [h.src] at hsrc
          simp at hsrc
    subst hfs
    exact ⟨fw, h, hd, hwait⟩
  | sendRep => omega
  | start => omega
  -- every phase of a shift has a rank of its own
  | @busy _ fw fs data payload ph o full pos h hc hne hnone hsave hd =>
    have h0 : phaseRank g.W ph = 0 := by omega
    cases ph with
    | idle => exact absurd rfl h.work
    | doomed => exact absurd rfl hne
    | _ => simp [phaseRank] at h0
  | replay => omega
  | doomed h => exact absurd hs h.not_sound

theorem DevAt.end (h : DevAt clkDiv2 tap fw0 all 0 s)
    (hs : s.Sound ev) : s.src = [] ∧ s.out = answers tap fw0 all ∧
      s.hist = (afterAll tap fw0 all).hist := by
  obtain ⟨fw, hat, hd, hwait⟩ := h.end_idle hs
  obtain ⟨served, hall, hsent, hafter⟩ := hd.served
  rw [List.append_nil] at hall hsent
  subst hall
  refine ⟨by simpa using hat.src, ?_, by rw [hat.quiet.hist, hafter]⟩
  rw [← hsent, Dev.sent, offered, hwait]
  simp

theorem Dev.run_rests (hD : 0 < clkDiv2) (hall : ∀ f ∈ all, f ≠ [])
    (hs : ∀ t, (Dev.run clkDiv2 tap all bufMem memOut evs t).Sound (evs t))
    (hin : ∀ t, (Dev.run clkDiv2 tap all bufMem memOut evs t).InRange (evs t))
    (hfair : Fair evs) :
    ∃ T, ∀ t ≥ T,
      DevAt clkDiv2 tap (Fw.init g.W) all 0 (Dev.run clkDiv2 tap all bufMem memOut evs t) := by
  obtain ⟨n, hinit⟩ : ∃ n, DevAt clkDiv2 tap (Fw.init g.W) all n
      (Dev.init g bufMem memOut (all.flatMap beats)) := DevAt.init hall
  exact runAt_eventually (C := fun s ev => s.Sound ev ∧ s.InRange ev)
    (fun n s ev hat hgood => hat.advances hD hgood.1 hgood.2) (fun t => ⟨hs t, hin t⟩)
    (Dev.moves_often hfair) hinit

theorem Dev.run_ends (hD : 0 < clkDiv2) (hall : ∀ f ∈ all, f ≠ [])
    (hs : ∀ t, (Dev.run clkDiv2 tap all bufMem memOut evs t).Sound (evs t))
    (hin : ∀ t, (Dev.run clkDiv2 tap all bufMem memOut evs t).InRange (evs t))
    (hfair : Fair evs) :
    ∃ T, ∀ t ≥ T, (Dev.run clkDiv2 tap all bufMem memOut evs t).src = [] ∧
      (Dev.run clkDiv2 tap all bufMem memOut evs t).out = answers tap (Fw.init g.W) all ∧
      (Dev.run clkDiv2 tap all bufMem memOut evs t).hist =
        (afterAll tap (Fw.init g.W) all).hist := by
  obtain ⟨T, hT⟩ := Dev.run_rests hD hall hs hin hfair
  exact ⟨T, fun t ht => (hT t ht).end (hs t)⟩

end XvcSupport.AxisToJtag
