import XvcSupport.WellFormed

namespace XvcSupport.AxisToJtag

open AxisToJtagPkg AxisToJtagCore JtagSerDesCore

variable {g : Generics} {clkDiv2 : ℕ} {tap : Tap} {s : Dev g} {ev : Bool × Bool}
  {fw : Fw g.W} {fs : List (List (BitVec g.W))} {data : BitVec g.W}
  {payload : List (BitVec g.W)}

/-- The header with the length of `k` full words. -/
def fullHeader (k : ℕ) (data : BitVec g.W) : BitVec g.W :=
  putSlice data 0 (BitVec.ofNat 20 (k * g.W - 1))

/-- The request for just the complete pairs of the payload. -/
def fullPairs (data : BitVec g.W) (payload : List (BitVec g.W)) : List (BitVec g.W) :=
  fullHeader (payload.length / 2) data :: payload.take (2 * (payload.length / 2))

theorem pairs_take {W : ℕ} (ws : List (BitVec W)) :
    pairs (ws.take (2 * (ws.length / 2))) = pairs ws := by
  fun_induction pairs ws with
  | case1 tms tdi rest ih =>
    have h : 2 * ((tms :: tdi :: rest).length / 2) = 2 * (rest.length / 2) + 2 := by
      simp only [List.length_cons]
      omega
    rw [h, List.take_succ_cons, List.take_succ_cons, pairs, ih]
  | case2 ws hws =>
    match ws, hws with
    | [], _ => simp [pairs]
    | [_], _ => simp [pairs]
    | tms :: tdi :: rest, h => exact absurd rfl (h tms tdi rest)

section Header

variable (k : ℕ)

theorem getVersion_fullHeader : getVersion (fullHeader k data) = getVersion data :=
  extractLsb'_putSlice_of_disjoint _ _ _ (by have := g.le_W; omega) (by omega)

theorem getCommand_fullHeader : getCommand (fullHeader k data) = getCommand data :=
  extractLsb'_putSlice_of_disjoint _ _ _ (by have := g.le_W; omega) (by omega)

theorem getXid_fullHeader : getXid (fullHeader k data) = getXid data :=
  extractLsb'_putSlice_of_disjoint _ _ _ (by have := g.le_W; omega) (by omega)

variable {k}

theorem announced_fullHeader (hk : 1 ≤ k) (hle : k * g.W ≤ 2 ^ 20) :
    announced (fullHeader k data) = k * g.W := by
  have hW := Nat.mul_le_mul_right g.W hk
  have h32 := g.le_W
  rw [announced, getLen, fullHeader, extractLsb'_putSlice_self _ _ _ (by omega),
    BitVec.toNat_ofNat, Nat.mod_eq_of_lt (by omega)]
  omega

end Header

theorem wordCount_mul {W : ℕ} (hW : 0 < W) (k : ℕ) : wordCount W (k * W) = k := by
  apply eq_of_forall_lt_iff
  intro c
  rw [Task.lt_wordCount hW, Nat.mul_lt_mul_right hW]

section Early

variable (hk : 1 ≤ payload.length / 2) (hearly : payload.length / 2 * g.W < announced data)
include hk hearly

theorem announced_full :
    announced (fullHeader (payload.length / 2) data) = payload.length / 2 * g.W :=
  announced_fullHeader hk (by have := announced_le data; omega)

theorem fullPairs_complete :
    2 * wordCount g.W (announced (fullHeader (payload.length / 2) data)) ≤
      (payload.take (2 * (payload.length / 2))).length := by
  rw [announced_full hk hearly, wordCount_mul g.W_pos, List.length_take]
  omega

theorem idle_fullPairs {xid : BitVec 8} {memValid : Bool}
    (hex : idle g xid memValid data payload.isEmpty = .execute) :
    idle g xid memValid (fullHeader (payload.length / 2) data) false = .execute := by
  have hne : payload.isEmpty = false := by cases payload <;> simp_all
  have hlen : checkLen g (fullHeader (payload.length / 2) data) = true := by
    rw [checkLen_iff_log2]
    have hann := announced_full hk hearly
    rcases (checkLen_iff_log2 g data).mp (payload_ne_nil hex).2 with h0 | hle
    · exact Or.inl h0
    · refine Or.inr (le_trans (wordCount_mono ?_) hle)
      unfold announced at hann hearly
      omega
  rw [hne] at hex
  revert hex
  unfold idle xidIsNew
  rw [getVersion_fullHeader, getCommand_fullHeader, getXid_fullHeader, hlen]
  split_ifs <;> simp_all

/-- An early end leaves behind what the complete request for its pairs leaves behind, and is
answered with the same TDO words. -/
theorem serve_early_end (hex : idle g fw.xid fw.memValid data payload.isEmpty = .execute) :
    serve g tap fw (data :: payload) =
      (data :: requestTdo tap fw.hist (fullHeader (payload.length / 2) data)
          (payload.take (2 * (payload.length / 2))),
        (serve g tap fw (fullPairs data payload)).2) := by
  have hmul : payload.length / 2 * g.W = g.W * (payload.length / 2) := Nat.mul_comm _ _
  have hlen : shiftLen g data payload = payload.length / 2 * g.W := by
    rw [shiftLen, pairs_length]
    unfold announced at hearly
    omega
  have hlen' : shiftLen g (fullHeader (payload.length / 2) data)
      (payload.take (2 * (payload.length / 2))) = payload.length / 2 * g.W := by
    rw [shiftLen_complete (fullPairs_complete hk hearly), announced_full hk hearly]
  have htake : (payload.take (2 * (payload.length / 2))).length = 2 * (payload.length / 2) := by
    rw [List.length_take]
    omega
  have hne : (payload.take (2 * (payload.length / 2))).isEmpty = false := by
    rw [List.isEmpty_eq_false_iff, ← List.length_pos_iff]
    omega
  rw [serve_execute hex (by omega), fullPairs,
    serve_execute (by rw [hne]; exact idle_fullPairs hk hearly hex) (by omega), getXid_fullHeader]
  simp only [shiftTdo, shiftBits, hlen, hlen', pairs_take, requestTdo, requestBits,
    announced_full hk hearly]

end Early

variable {fw0 : Fw g.W} {all : List (List (BitVec g.W))}

theorem AtBusy.core_ne_idle {ph : Phase} {o : ℕ} {full : Bool} {pos : Pos}
    (h : AtBusy clkDiv2 tap s fw fs data payload ph o full pos) : s.core.state ≠ .idle := by
  have hcore := h.joint.core
  have hwork := h.work
  generalize s.core = r at hcore
  cases hcore with
  | idle => exact absurd rfl hwork
  | final _ hst => rcases hst with rfl | rfl <;> simp
  | abortWait _ hst => rcases hst with rfl | rfl <;> simp
  | _ => simp

theorem DevAt.returns (hD : 0 < clkDiv2) {n : ℕ}
    (h : DevAt clkDiv2 tap fw0 all n s) (hs : s.Sound ev) (hin : s.InRange ev)
    (hbusy : s.core.state ≠ .idle)
    (hidle : (s.cycle clkDiv2 tap ev).core.state = .idle) :
    ∃ served f fs, all = served ++ f :: fs ∧ (s.cycle clkDiv2 tap ev).src = fs.flatMap beats ∧
      Quiet (s.cycle clkDiv2 tap ev) (afterAll tap fw0 (served ++ [f])).hist ∧
      (f.length ≠ 2 → (s.cycle clkDiv2 tap ev).sent = answers tap fw0 (served ++ [f])) := by
  cases h with
  | idle h => exact absurd h.quiet.core hbusy
  | sendRep h => exact absurd h.quiet.core hbusy
  | start h => exact absurd h.quiet.core hbusy
  | replay h => exact absurd h.quiet.core hbusy
  | doomed h => exact absurd hs h.not_sound
  | @busy _ fw fs data payload ph o full pos h hc hne hnone hsave hd =>
    have hfine := h.fine hs
    obtain ⟨served, hall, hafter⟩ := hc
    have hfw : afterAll tap fw0 (served ++ [data :: payload]) =
        (serve g tap fw (data :: payload)).2 := by
      rw [afterAll_append, hafter]
      rfl
    by_cases hnext : ph.next (taskOf fw data payload) o full (s.mTdi ev.1).tValid (s.sTdo ev.2)
        s.ser.iReady s.ser.oValid = .idle
    · refine ⟨served, data :: payload, fs, hall, ?_⟩
      rw [hfw]
      rcases Phase.next_idle h.work hnext with ⟨rfl, hrdy⟩ | ⟨rfl, hv, hlen⟩
      · have hat : AtIdle (s.cycle clkDiv2 tap ev) _ fs := h.finish hD hin hsave hrdy
        have hd' : Due tap fw0 all (s.cycle clkDiv2 tap ev) [] _ fs :=
          hd.next (h.finish_due hnone hrdy)
        refine ⟨hat.src, hat.quiet, fun _ => ?_⟩
        obtain ⟨served', hall', hsent, -⟩ := hd'.served
        have heq : served' = served ++ [data :: payload] := by
          rw [hall, ← List.singleton_append, ← List.append_assoc] at hall'
          exact (List.append_cancel_right hall').symm
        rw [List.append_nil, heq] at hsent
        exact hsent
      · have hlen : payload.length = 1 := hlen
        have hx : s.reqXfer ev.1 = true := by
          rw [h.reqXfer_eq, CoreAt.getTms_sReady h.joint.core, hv]
          rfl
        obtain ⟨hat, -⟩ := h.early hD hlen hx
        exact ⟨by rw [hat.src]; simp, hat.quiet, fun hcon => absurd (by simp [hlen]) hcon⟩
    · exact absurd hidle (h.next hD hfine hnext).core_ne_idle

/-- Back from the frame `f` with only the frames `post` left to send, the core has served `f`. -/
theorem DevAt.returns_from (hD : 0 < clkDiv2) {n : ℕ} {pre post : List (List (BitVec g.W))}
    {f : List (BitVec g.W)} (h : DevAt clkDiv2 tap fw0 (pre ++ f :: post) n s)
    (hall : ∀ f' ∈ pre ++ f :: post, f' ≠ []) (hs : s.Sound ev) (hin : s.InRange ev)
    (hbusy : s.core.state ≠ .idle) (hidle : (s.cycle clkDiv2 tap ev).core.state = .idle)
    (hsrc : (s.cycle clkDiv2 tap ev).src = post.flatMap beats) (hlen : f.length ≠ 2) :
    Quiet (s.cycle clkDiv2 tap ev) (afterAll tap fw0 (pre ++ [f])).hist ∧
      (s.cycle clkDiv2 tap ev).sent = answers tap fw0 (pre ++ [f]) := by
  obtain ⟨served, f', fs, hsplit, hsrc', hquiet, hsent⟩ := h.returns hD hs hin hbusy hidle
  have hsame : (served ++ [f']) ++ fs = (pre ++ [f]) ++ post := by
    rw [List.append_assoc, List.append_assoc]
    exact hsplit.symm
  -- the words left to send tell which frame the core was busy with
  have hfs : fs = post := by
    refine suffix_of_beats ?_ hsame (hsrc'.symm.trans hsrc)
    rw [hsame, List.append_assoc]
    exact hall
  rw [hfs] at hsame
  have hserved : served ++ [f'] = pre ++ [f] := List.append_cancel_right hsame
  obtain rfl : f' = f := by simpa using congrArg List.getLast? hserved
  rw [hserved] at hquiet hsent
  exact ⟨hquiet, hsent hlen⟩

/-- The core has come back to `IDLE_S` in cycle `t` with only the frames `post` left to send. -/
def Returns (run : ℕ → Dev g) (post : List (List (BitVec g.W))) (t : ℕ) : Prop :=
  (run t).core.state ≠ .idle ∧ (run (t + 1)).core.state = .idle ∧
    (run (t + 1)).src = post.flatMap beats

/-- A new request that ends early after `k` complete pairs, in a run of which every step is
sound.  Whenever the core comes back from it, the answer of `k` words has been sent and nothing
is pending.  All along, what is sent and what TCK does is the beginning of what happens with
the complete request for the `k` pairs in its place (its own header in the reply apart), and if
both neighbours act again and again it is all of it in the end. -/
theorem truncated_shift (hD : 0 < clkDiv2) (tap : Tap) (bufMem : ℕ → BitVec g.W)
    (memOut : BitVec g.W) (evs : ℕ → Bool × Bool) (pre post : List (List (BitVec g.W)))
    (data : BitVec g.W) (payload : List (BitVec g.W)) (hver : getVersion data = proVersn)
    (hcmd : getCommand data = cmdTrans) (hlen : checkLen g data = true)
    (hnew : xidIsNew g data (afterAll tap (Fw.init g.W) pre).xid
      (afterAll tap (Fw.init g.W) pre).memValid = true)
    (hk : 1 ≤ payload.length / 2) (hearly : payload.length / 2 * g.W < announced data)
    (hne : ∀ f ∈ pre ++ post, f ≠ [])
    (hs : ∀ t, (Dev.run clkDiv2 tap (pre ++ (data :: payload) :: post) bufMem memOut evs t).Sound
      (evs t))
    (hin : ∀ t, (Dev.run clkDiv2 tap (pre ++ (data :: payload) :: post) bufMem memOut evs
      t).InRange (evs t)) :
    let words := requestTdo tap (afterAll tap (Fw.init g.W) pre).hist
      (fullHeader (payload.length / 2) data) (payload.take (2 * (payload.length / 2)))
    let before := answers tap (Fw.init g.W) pre
    let later := afterAll tap (Fw.init g.W) (pre ++ [fullPairs data payload])
    let out := before ++ beats (data :: words) ++ answers tap later post
    let run := Dev.run clkDiv2 tap (pre ++ (data :: payload) :: post) bufMem memOut evs
    let complete := Dev.run clkDiv2 tap (pre ++ fullPairs data payload :: post) bufMem memOut
    words.length = payload.length / 2 ∧
      (∀ t, Returns run post t → Quiet (run (t + 1)) later.hist ∧
        (run (t + 1)).sent = before ++ beats (data :: words)) ∧
      (∀ t, (run t).out <+: out ∧ (run t).hist <+: (afterAll tap later post).hist) ∧
      (Fair evs → ∃ T, ∀ t ≥ T, (run t).src = [] ∧ (run t).out = out ∧
        (run t).hist = (afterAll tap later post).hist) ∧
      ∀ evs', (∀ t, (complete evs' t).Sound (evs' t) ∧ (complete evs' t).InRange (evs' t)) →
        Fair evs' → ∃ T, ∀ t ≥ T,
        (complete evs' t).src = [] ∧
        (complete evs' t).out = before ++ beats (fullHeader (payload.length / 2) data :: words) ++
          answers tap later post ∧
        (complete evs' t).hist = (afterAll tap later post).hist := by
  intro words before later out run complete
  have hpay : payload.isEmpty = false := by
    cases payload with
    | nil => simp at hk
    | cons w ws => rfl
  have hex := idle_execute hver hcmd hlen hnew
  rw [← hpay] at hex
  obtain ⟨hpre, hpost⟩ := List.forall_mem_append.mp hne
  have hall : ∀ f0 : List (BitVec g.W), f0 ≠ [] → ∀ f ∈ pre ++ f0 :: post, f ≠ [] := fun _ h0 =>
    List.forall_mem_append.mpr ⟨hpre, List.forall_mem_cons.mpr ⟨h0, hpost⟩⟩
  have hserve : serve g tap _ (data :: payload) = _ := serve_early_end hk hearly hex
  have hlater : afterAll tap (Fw.init g.W) (pre ++ [data :: payload]) = later := by
    simp only [later, afterAll_append, afterAll_singleton, hserve]
  have hsent : answers tap (Fw.init g.W) (pre ++ [data :: payload]) =
      before ++ beats (data :: words) := by
    rw [answers_append, answers_singleton, hserve]
  have hcons : pre ++ (data :: payload) :: post = (pre ++ [data :: payload]) ++ post := by simp
  have hout : answers tap (Fw.init g.W) (pre ++ (data :: payload) :: post) = out := by
    rw [hcons, answers_append, hsent, hlater]
  have hhist : afterAll tap (Fw.init g.W) (pre ++ (data :: payload) :: post) =
      afterAll tap later post := by
    rw [hcons, afterAll_append, hlater]
  refine ⟨?_, ?_, ?_, ?_, ?_⟩
  · simp [words, requestTdo, announced_full hk hearly, wordCount_mul g.W_pos]
  · rintro t ⟨hbusy, hidle, hsrc⟩
    obtain ⟨n, hat⟩ := DevAt.run hD (hall (data :: payload) (by simp)) hs hin t
    have hcycle : run (t + 1) = (run t).cycle clkDiv2 tap (evs t) := runAt_succ t
    rw [hcycle] at hidle hsrc ⊢
    have hlen2 : (data :: payload).length ≠ 2 := by
      rw [List.length_cons]
      omega
    rw [← hlater, ← hsent]
    exact hat.returns_from hD (hall _ (by simp)) (hs t) (hin t) hbusy hidle hsrc hlen2
  · intro t
    obtain ⟨n, hat⟩ := DevAt.run hD (hall (data :: payload) (by simp)) hs hin t
    rw [← hout, ← hhist]
    exact hat.beginning (hs t)
  · intro hfair
    rw [← hout, ← hhist]
    exact Dev.run_ends hD (hall (data :: payload) (by simp)) hs hin hfair
  · intro evs' hgood hfair'
    have hreply : (serve g tap (afterAll tap (Fw.init g.W) pre) (fullPairs data payload)).1 =
        fullHeader (payload.length / 2) data :: words :=
      (serve_complete (idle_fullPairs hk hearly hex) (fullPairs_complete hk hearly)).1
    have hcons' : pre ++ fullPairs data payload :: post =
        (pre ++ [fullPairs data payload]) ++ post := by simp
    have hout' : answers tap (Fw.init g.W) (pre ++ fullPairs data payload :: post) =
        before ++ beats (fullHeader (payload.length / 2) data :: words) ++
          answers tap later post := by
      rw [hcons', answers_append, answers_append, answers_singleton, hreply]
    have hhist' : afterAll tap (Fw.init g.W) (pre ++ fullPairs data payload :: post) =
        afterAll tap later post := by
      rw [hcons', afterAll_append]
    rw [← hout', ← hhist']
    exact Dev.run_ends hD (hall _ (by simp [fullPairs])) (fun t => (hgood t).1)
      (fun t => (hgood t).2) hfair'

/-- Without words to come an idle core stays idle. -/
theorem core_idle_next (h : s.src = [] ∧ s.core.state = .idle ∧ s.core.last = false) :
    (s.cycle clkDiv2 tap ev).src = [] ∧ (s.cycle clkDiv2 tap ev).core.state = .idle ∧
      (s.cycle clkDiv2 tap ev).core.last = false := by
  obtain ⟨hsrc, hst, hlast⟩ := h
  have hv : (s.mTdi ev.1).tValid = false := by simp [Dev.mTdi, Dev.mAxisReq, hsrc, Axis.init]
  refine ⟨by simp [Dev.cycle, hsrc], ?_⟩
  simp only [Dev.cycle, AxisToJtagCore.Reg.next, AxisToJtagCore.Reg.fsm,
    AxisToJtagCore.Reg.output, hst, hv, hlast, Bool.and_false, Bool.false_and, Bool.false_eq_true,
    if_false]
  split_ifs <;> exact ⟨rfl, rfl⟩

/-- A request for 64 bits with three payload words, and then a query. -/
def brokenOff : List (List (BitVec fourOctets.W)) := [[0x1010003f, 1, 2, 3], [0]]

theorem brokenOff_sound (t : ℕ) :
    (Dev.run 1 (fun _ _ _ => false) brokenOff (fun _ => 0) 0 (fun _ => (true, true)) t).Sound
      (true, true) := by
  have hfirst : ∀ t < 90, (Dev.run 1 (fun _ _ _ => false) brokenOff (fun _ => 0) 0
      (fun _ => (true, true)) t).Sound (true, true) := by decide +kernel
  have hrest : ∀ d, (Dev.run 1 (fun _ _ _ => false) brokenOff (fun _ => 0) 0
      (fun _ => (true, true)) (90 + d)).src = [] ∧ (Dev.run 1 (fun _ _ _ => false) brokenOff
      (fun _ => 0) 0 (fun _ => (true, true)) (90 + d)).core.state = .idle ∧
      (Dev.run 1 (fun _ _ _ => false) brokenOff (fun _ => 0) 0 (fun _ => (true, true))
        (90 + d)).core.last = false := by
    intro d
    induction d with
    | zero => decide +kernel
    | succ d ih =>
      rw [← Nat.add_assoc, Dev.run, runAt_succ]
      exact core_idle_next ih
  by_cases ht : t < 90
  · exact hfirst t ht
  · obtain ⟨d, rfl⟩ := Nat.exists_eq_add_of_le (not_lt.mp ht)
    constructor <;> rintro ⟨hst, -⟩ <;> rw [(hrest d).2.1] at hst <;> exact absurd hst (by simp)

/-- `TLAST` on the second TMS word, with the first TDO word still to come. -/
theorem truncated_shift_tms :
    ∃ T, ∀ t ≥ T, (Dev.run 1 (fun _ _ _ => false) brokenOff (fun _ => 0) 0
      (fun _ => (true, true)) t).out =
        [(0x1010003f, false), (0, true), (0x103, true)] := by
  obtain ⟨-, -, -, hend, -⟩ := truncated_shift (g := fourOctets) one_pos (fun _ _ _ => false)
    (fun _ => 0) 0 (fun _ => (true, true)) [] [[0]] 0x1010003f [1, 2, 3] (by decide) (by decide)
    (by decide) rfl (by decide) (by decide)
    (by simp) brokenOff_sound (Dev.run_inRange one_pos (by simp)
      (fun f hf => fits_of_width (a := 5) rfl (by rintro rfl; simp at hf))
      brokenOff_sound)
  obtain ⟨T, hT⟩ := hend ⟨fun t => ⟨t, le_rfl, rfl⟩, fun t => ⟨t, le_rfl, rfl⟩⟩
  exact ⟨T, fun t ht => (hT t ht).2.1.trans (by decide +kernel)⟩

/-- `TLAST` on the second TMS word, after the first TDO word has been taken over: the core comes
back to `IDLE_S` with `running` set, and no word has carried `TLAST`. -/
theorem late_tlast_leaves_running :
    Returns (Dev.run (g := fourOctets) 1 (fun _ _ _ => false) [[0x1010003f, 1, 2, 3]]
        (fun _ => 0) 0 (fun t => (decide (t < 4 ∨ 74 ≤ t), true))) [] 74 ∧
      (Dev.run (g := fourOctets) 1 (fun _ _ _ => false) [[0x1010003f, 1, 2, 3]] (fun _ => 0) 0
        (fun t => (decide (t < 4 ∨ 74 ≤ t), true)) 75).core.running = true ∧
      (Dev.run (g := fourOctets) 1 (fun _ _ _ => false) [[0x1010003f, 1, 2, 3]] (fun _ => 0) 0
        (fun t => (decide (t < 4 ∨ 74 ≤ t), true)) 75).sent =
          [(0x1010003f, false), (0, false)] := by
  unfold Returns
  decide +kernel

end XvcSupport.AxisToJtag
