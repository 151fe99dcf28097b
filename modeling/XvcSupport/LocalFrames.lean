import XvcSupport.WellFormed

namespace XvcSupport.AxisToJtag

open AxisToJtagPkg AxisToJtagCore JtagSerDesCore

variable {g : Generics} {clkDiv2 : ℕ} {tap : Tap} {s : Dev g} {ev : Bool × Bool}
  {fw fw0 : Fw g.W} {data : BitVec g.W} {payload : List (BitVec g.W)}
  {all : List (List (BitVec g.W))} {bufMem : ℕ → BitVec g.W} {memOut : BitVec g.W}
  {evs : ℕ → Bool × Bool}

/-- The frames that are answered by a single word, with the error code of that word; a query has
none. -/
inductive OwnFrame (fw : Fw g.W) (data : BitVec g.W) (payload : List (BitVec g.W)) :
    Option (BitVec 20) → Prop
  | badVersion (hver : getVersion data ≠ proVersn) : OwnFrame fw data payload (some errBadVersion)
  | query (hver : getVersion data = proVersn) (hcmd : getCommand data = cmdQuery) :
      OwnFrame fw data payload none
  | badCommand (hver : getVersion data = proVersn) (hquery : getCommand data ≠ cmdQuery)
      (htrans : getCommand data ≠ cmdTrans) : OwnFrame fw data payload (some errBadCommand)
  | headerOnly (hver : getVersion data = proVersn) (hcmd : getCommand data = cmdTrans)
      (hlen : payload = []) : OwnFrame fw data payload (some errTruncated)
  | rejected (hver : getVersion data = proVersn) (hcmd : getCommand data = cmdTrans)
      (hcheck : checkLen g data = false) : OwnFrame fw data payload (some errTruncated)
  | firstTms (hver : getVersion data = proVersn) (hcmd : getCommand data = cmdTrans)
      (hnew : xidIsNew g data fw.xid fw.memValid = true) (hlen : payload.length = 1) :
      OwnFrame fw data payload (some errTruncated)

/-- The word is the query data or the error for this header. -/
def OwnAnswer (data w : BitVec g.W) : Option (BitVec 20) → Prop
  | none => w = setQueryData g data
  | some err => getVersion w = proVersn ∧ getCommand w = cmdError ∧ getXid w = getXid data ∧
      getLen w = err

theorem setErr_answers (err : BitVec 20) (hver : getVersion data = proVersn) :
    OwnAnswer data (setErr err data) (some err) := by
  have hW := g.le_W
  refine ⟨?_, ?_, ?_, ?_⟩
  · rw [← hver, setErr, getVersion, extractLsb'_putSlice_of_disjoint _ _ _ (by omega) (by omega),
      extractLsb'_putSlice_of_disjoint _ _ _ (by omega) (by omega)]
    rfl
  · rw [setErr, getCommand, extractLsb'_putSlice_of_disjoint _ _ _ (by omega) (by omega),
      extractLsb'_putSlice_self _ _ _ (by omega)]
  · rw [setErr, getXid, extractLsb'_putSlice_of_disjoint _ _ _ (by omega) (by omega),
      extractLsb'_putSlice_of_disjoint _ _ _ (by omega) (by omega)]
    rfl
  · rw [setErr, getLen, extractLsb'_putSlice_self _ _ _ (by omega)]

theorem getVersion_setVersion : getVersion (setVersion proVersn data) = proVersn := by
  have hW := g.le_W
  rw [getVersion, setVersion, extractLsb'_putSlice_self _ _ _ (by omega)]

theorem getXid_setVersion : getXid (setVersion proVersn data) = getXid data := by
  have hW := g.le_W
  rw [getXid, setVersion, extractLsb'_putSlice_of_disjoint _ _ _ (by omega) (by omega)]
  rfl

theorem OwnFrame.serve {err : Option (BitVec 20)} (h : OwnFrame fw data payload err) :
    ∃ w, OwnAnswer data w err ∧ (serve g tap fw (data :: payload)).1 = [w] ∧
      (AxisToJtag.serve g tap fw (data :: payload)).2.hist = fw.hist := by
  have hwrong : getVersion data = proVersn →
      OwnAnswer data (setErr errTruncated data) (some errTruncated) := setErr_answers errTruncated
  cases h with
  | badVersion hver =>
    refine ⟨setErr errBadVersion (setVersion proVersn data), ?_, ?_, ?_⟩
    · have hset : getVersion (setVersion proVersn data) = proVersn := getVersion_setVersion
      simpa only [OwnAnswer, getXid_setVersion] using setErr_answers errBadVersion hset
    · simp [AxisToJtag.serve, idle, hver]
    · simp [AxisToJtag.serve, idle, hver]
  | query hver hcmd =>
    exact ⟨_, rfl, by simp [AxisToJtag.serve, idle, hver, hcmd],
      by simp [AxisToJtag.serve, idle, hver, hcmd]⟩
  | badCommand hver hquery htrans =>
    exact ⟨_, setErr_answers errBadCommand hver,
      by simp [AxisToJtag.serve, idle, hver, hquery, htrans],
      by simp [AxisToJtag.serve, idle, hver, hquery, htrans]⟩
  | headerOnly hver hcmd hlen =>
    have hq : cmdTrans ≠ cmdQuery := by decide
    exact ⟨_, hwrong hver, by simp [AxisToJtag.serve, idle, hver, hcmd, hq, hlen],
      by simp [AxisToJtag.serve, idle, hver, hcmd, hq, hlen]⟩
  | rejected hver hcmd hcheck =>
    have hq : cmdTrans ≠ cmdQuery := by decide
    have hdec : idle g fw.xid fw.memValid data payload.isEmpty = .truncated := by
      simp [idle, hver, hcmd, hq, hcheck]
    exact ⟨_, hwrong hver, by rw [AxisToJtag.serve, hdec], by rw [AxisToJtag.serve, hdec]⟩
  | firstTms hver hcmd hnew hlen =>
    have hq : cmdTrans ≠ cmdQuery := by decide
    have hne : payload.isEmpty = false := by
      cases payload with
      | nil => simp at hlen
      | cons => rfl
    refine ⟨_, hwrong hver, ?_⟩
    cases hcheck : checkLen g data with
    | true => simp [AxisToJtag.serve, idle, hver, hcmd, hq, hne, hcheck, hnew, hlen]
    | false => simp [AxisToJtag.serve, idle, hver, hcmd, hq, hne, hcheck]

/-- The frames `served` have been absorbed and answered, and nothing of `rest` has been. -/
structure Between (tap : Tap) (s : Dev g) (served rest : List (List (BitVec g.W))) : Prop where
  src : s.src = rest.flatMap beats
  sent : s.sent = answers tap (Fw.init g.W) served
  hist : s.hist = (afterAll tap (Fw.init g.W) served).hist

theorem DevAt.at_idle {n : ℕ} (h : DevAt clkDiv2 tap fw0 all n s) (hst : s.r.state = .idle) :
    ∃ fw fs, AtIdle s fw fs ∧ Due tap fw0 all s [] fw fs := by
  cases h with
  | idle h hd => exact ⟨_, _, h, hd⟩
  | sendRep h => exact absurd (h.state.symm.trans hst) (by simp)
  | start h => exact absurd (h.state.symm.trans hst) (by simp)
  | replay h => exact absurd (h.state.symm.trans hst) (by simp)
  | busy h =>
    rcases h.state with ⟨h, -⟩ | ⟨h, -⟩ | ⟨h, -⟩ <;> exact absurd (h.symm.trans hst) (by simp)
  | doomed h =>
    rcases h.state with ⟨h, -⟩ | ⟨h, -⟩ | ⟨h, -⟩ <;> exact absurd (h.symm.trans hst) (by simp)

/-- The entity looks at a header only when all frames before are done with. -/
theorem DevAt.between {n : ℕ} (h : DevAt clkDiv2 tap (Fw.init g.W) all n s)
    (hst : s.r.state = .idle) :
    ∃ served rest, all = served ++ rest ∧ Between tap s served rest := by
  obtain ⟨fw, fs, hat, hd⟩ := h.at_idle hst
  obtain ⟨served, hall, hsent, hafter⟩ := hd.served
  refine ⟨served, fs, hall, hat.src, ?_, ?_⟩
  · rw [← hsent, List.append_nil]
  · rw [hat.quiet.hist, hafter]

/-- TCK has moved only as far as it has moved. -/
theorem Dev.hist_grows (s : Dev g) (ev : Bool × Bool) :
    s.hist <+: (s.cycle clkDiv2 tap ev).hist := by
  simp only [Dev.cycle, JtagSerDesCore.Reg.clock]
  split_ifs
  · exact List.prefix_rfl
  · exact List.prefix_append _ _

theorem DevAt.run_tidy (hD : 0 < clkDiv2) (hT : AllTidy tap (Fw.init g.W) all) {t : ℕ}
    (hin : ∀ u < t, (Dev.run clkDiv2 tap all bufMem memOut evs u).InRange (evs u)) :
    ∃ n, DevAt clkDiv2 tap (Fw.init g.W) all n (Dev.run clkDiv2 tap all bufMem memOut evs t) := by
  refine runAt_invariant (C := Dev.InRange)
    (P := fun s => ∃ n, DevAt clkDiv2 tap (Fw.init g.W) all n s) ?_
    (DevAt.init fun f hf => hT.ne_nil hf) hin
  rintro s ev ⟨n, hat⟩ hrange
  obtain ⟨n', hat', -⟩ := hat.advances hD (hat.sound hT) hrange
  exact ⟨n', hat'⟩

/-- In every run on frames that do not break off within a pair, up to the first write beside the
memory (which VHDL does not allow): what is sent is the beginning of the answers, and headers
are looked at only on frame boundaries.  Each frame that the entity answers by itself gets one
word with `TLAST`, and TCK stands still from the boundary before it to the one after it.  All
frames are answered in the end when both neighbours act again and again. -/
theorem local_frames (hD : 0 < clkDiv2) (tap : Tap) (bufMem : ℕ → BitVec g.W)
    (memOut : BitVec g.W) (evs : ℕ → Bool × Bool) (all : List (List (BitVec g.W)))
    (hT : AllTidy tap (Fw.init g.W) all) :
    let run := Dev.run clkDiv2 tap all bufMem memOut evs
    (∀ t, (∀ u < t, (run u).InRange (evs u)) →
      (run t).out <+: answers tap (Fw.init g.W) all ∧
      ((run t).r.state = .idle →
        ∃ served rest, all = served ++ rest ∧ Between tap (run t) served rest)) ∧
    (∀ pre data payload post err, all = pre ++ (data :: payload) :: post →
      OwnFrame (afterAll tap (Fw.init g.W) pre) data payload err →
      ∃ w, OwnAnswer data w err ∧
        answers tap (Fw.init g.W) all = answers tap (Fw.init g.W) pre ++ (w, true) ::
          answers tap (afterAll tap (Fw.init g.W) (pre ++ [data :: payload])) post ∧
        ∀ t1 t2, t1 ≤ t2 → (∀ u < t2, (run u).InRange (evs u)) →
          (run t1).r.state = .idle → (run t1).src = ((data :: payload) :: post).flatMap beats →
          (run t2).r.state = .idle → (run t2).src = post.flatMap beats →
          (run t2).sent = (run t1).sent ++ [(w, true)] ∧
            ∀ t, t1 ≤ t → t ≤ t2 → (run t).hist = (run t1).hist) ∧
    ((∀ t, (run t).InRange (evs t)) → Fair evs →
      ∃ T, ∀ t ≥ T, (run t).src = [] ∧ (run t).out = answers tap (Fw.init g.W) all ∧
        (run t).hist = (afterAll tap (Fw.init g.W) all).hist) := by
  intro run
  have hne : ∀ f ∈ all, f ≠ [] := fun f hf => hT.ne_nil hf
  have hat : ∀ t, (∀ u < t, (run u).InRange (evs u)) →
      ∃ n, DevAt clkDiv2 tap (Fw.init g.W) all n (run t) := fun t hin => DevAt.run_tidy hD hT hin
  refine ⟨?_, ?_, ?_⟩
  · intro t hin
    obtain ⟨n, hat⟩ := hat t hin
    have hs : (run t).Sound (evs t) := hat.sound hT
    exact ⟨(hat.beginning hs).1, hat.between⟩
  · intro pre data payload post err hall hown
    obtain ⟨w, hw, hserve, hhist⟩ : ∃ w, OwnAnswer data w err ∧
        (serve g tap (afterAll tap (Fw.init g.W) pre) (data :: payload)).1 = [w] ∧ _ := hown.serve
    have hcons : all = (pre ++ [data :: payload]) ++ post := by simp [hall]
    have hsent : answers tap (Fw.init g.W) (pre ++ [data :: payload]) =
        answers tap (Fw.init g.W) pre ++ [(w, true)] := by
      rw [answers_append, answers_singleton, hserve]
      rfl
    refine ⟨w, hw, ?_, ?_⟩
    · rw [hcons, answers_append, hsent]
      simp
    · intro t1 t2 h12 hin hst1 hsrc1 hst2 hsrc2
      -- the state is `IDLE_S` with just the frames from this one on, or from the next one on
      have hbound : ∀ {t pre' post'}, t ≤ t2 → all = pre' ++ post' → (run t).r.state = .idle →
          (run t).src = post'.flatMap beats → Between tap (run t) pre' post' := by
        intro t pre' post' ht hsplit hst hsrc
        obtain ⟨n, hat⟩ := hat t fun u hu => hin u (by omega)
        obtain ⟨served, rest, hall', hb⟩ := hat.between hst
        have hrest : rest = post' :=
          suffix_of_beats (hall' ▸ hne) (hall'.symm.trans hsplit) (hb.src.symm.trans hsrc)
        subst hrest
        rwa [List.append_cancel_right (hall'.symm.trans hsplit)] at hb
      have hb1 := hbound h12 hall hst1 hsrc1
      have hb2 := hbound le_rfl hcons hst2 hsrc2
      have hstill : (run t2).hist = (run t1).hist := by
        rw [hb2.hist, afterAll_append, afterAll_singleton, hhist, hb1.hist]
      refine ⟨by rw [hb2.sent, hsent, hb1.sent], ?_⟩
      intro t ht1 ht2
      have h1 : (run t1).hist <+: (run t).hist := runAt_mono Dev.hist_grows ht1
      have h2 : (run t).hist <+: (run t2).hist := runAt_mono Dev.hist_grows ht2
      rw [hstill] at h2
      exact (h1.eq_of_length_le h2.length_le).symm
  · intro hin hfair
    refine Dev.run_ends hD hne (fun t => ?_) hin hfair
    obtain ⟨n, hat⟩ := hat t fun u _ => hin u
    exact hat.sound hT

/-- A frame of a later version, a shift of eight bits and a shift that is broken off at once. -/
theorem local_frames_bad_version :
    ∃ T, ∀ t ≥ T, (Dev.run (g := fourOctets) 1 (fun _ _ tdi => tdi)
      [[0x40500000, 7], [0x10100007, 0xa5, 0x3c], [0x10200007, 0xa5]]
      (fun _ => 0) 0 (fun _ => (true, true)) t).out =
        [(0x20500001, true), (0x10100007, false), (0x3c, true), (0x20200003, true)] := by
  have hT : AllTidy (g := fourOctets) (fun _ _ tdi => tdi) (Fw.init _)
      [[0x40500000, 7], [0x10100007, 0xa5, 0x3c], [0x10200007, 0xa5]] :=
    ⟨fun _ => Or.inr (Or.inl rfl), fun _ => Or.inl rfl, fun _ => Or.inr (Or.inl rfl), trivial⟩
  obtain ⟨-, -, hend⟩ := local_frames (g := fourOctets) one_pos (fun _ _ tdi => tdi) (fun _ => 0) 0
    (fun _ => (true, true)) _ hT
  obtain ⟨T, hrun⟩ := hend
    (fun t =>
      (Dev.run_sound one_pos (fun f hf => fits_of_width (a := 5) rfl (hT.ne_nil hf)) hT t).2)
    ⟨fun t => ⟨t, le_rfl, rfl⟩, fun t => ⟨t, le_rfl, rfl⟩⟩
  exact ⟨T, fun t ht => (hrun t ht).2.1.trans (by decide +kernel)⟩

end XvcSupport.AxisToJtag
