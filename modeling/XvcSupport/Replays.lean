import XvcSupport.ReplayBounds

namespace XvcSupport.AxisToJtag

open AxisToJtagPkg AxisToJtagCore JtagSerDesCore

variable {g : Generics} {clkDiv2 : ℕ} {tap : Tap} {s : Dev g} {ev : Bool × Bool}
  {fw : Fw g.W} {data : BitVec g.W} {payload : List (BitVec g.W)}
  {fs later : List (List (BitVec g.W))} {x : BitVec 8} {err : Option (BitVec 20)}

/-- Frames that come after a shift with the ID `x`: repeats, and frames with an error that has to
be answered with this code. -/
inductive AfterShift (x : BitVec 8) (data : BitVec g.W) (payload : List (BitVec g.W)) :
    Option (BitVec 20) → Prop
  | again (hver : getVersion data = proVersn) (hcmd : getCommand data = cmdTrans)
      (hxid : getXid data = x) (hcheck : checkLen g data = true) (hlen : payload ≠ []) :
      AfterShift x data payload none
  | badVersion (hver : getVersion data ≠ proVersn) :
      AfterShift x data payload (some errBadVersion)
  | badCommand (hver : getVersion data = proVersn) (hquery : getCommand data ≠ cmdQuery)
      (htrans : getCommand data ≠ cmdTrans) : AfterShift x data payload (some errBadCommand)
  | headerOnly (hver : getVersion data = proVersn) (hcmd : getCommand data = cmdTrans)
      (hlen : payload = []) : AfterShift x data payload (some errTruncated)
  | rejected (hver : getVersion data = proVersn) (hcmd : getCommand data = cmdTrans)
      (hcheck : checkLen g data = false) : AfterShift x data payload (some errTruncated)

/-- A repeat is answered by its own header and the words of the shift. -/
def LaterAnswer (data : BitVec g.W) (words reply : List (BitVec g.W)) : Option (BitVec 20) → Prop
  | none => reply = data :: words
  | some err => ∃ w, reply = [w] ∧ OwnAnswer data w (some err)

/-- All the frames are of this kind. -/
def AllAfterShift (x : BitVec 8) (later : List (List (BitVec g.W))) : Prop :=
  ∀ f ∈ later, ∃ data payload err, f = data :: payload ∧ AfterShift x data payload err

theorem AfterShift.own {e : BitVec 20} (h : AfterShift x data payload (some e)) :
    OwnFrame fw data payload (some e) := by
  cases h with
  | badVersion hver => exact .badVersion hver
  | badCommand hver hquery htrans => exact .badCommand hver hquery htrans
  | headerOnly hver hcmd hlen => exact .headerOnly hver hcmd hlen
  | rejected hver hcmd hcheck => exact .rejected hver hcmd hcheck

theorem AfterShift.idle_again (h : AfterShift fw.xid data payload none) (hdepth : 0 < g.memDepth)
    (hmem : fw.memValid = true) :
    idle g fw.xid fw.memValid data payload.isEmpty = .replay := by
  cases h with
  | again hver hcmd hxid hcheck hlen =>
    have hq : cmdTrans ≠ cmdQuery := by decide
    have hnew : xidIsNew g data fw.xid fw.memValid = false := by
      simp [xidIsNew, hxid, hmem, hdepth.ne']
    have hne : payload.isEmpty = false := by simpa using hlen
    simp [idle, hver, hcmd, hq, hne, hcheck, hnew]

theorem AfterShift.idle_error {e : BitVec 20} (h : AfterShift x data payload (some e)) :
    (idle g fw.xid fw.memValid data payload.isEmpty).isLocal = true ∧
      idle g fw.xid fw.memValid data payload.isEmpty ≠ .query := by
  have hq : cmdTrans ≠ cmdQuery := by decide
  cases h with
  | badVersion hver => simp [idle, hver, Decision.isLocal]
  | badCommand hver hquery htrans => simp [idle, hver, hquery, htrans, Decision.isLocal]
  | headerOnly hver hcmd hlen => simp [idle, hver, hcmd, hq, hlen, Decision.isLocal]
  | rejected hver hcmd hcheck =>
    have hdec : idle g fw.xid fw.memValid data payload.isEmpty = .truncated := by
      simp [idle, hver, hcmd, hq, hcheck]
    simp [hdec, Decision.isLocal]

theorem AfterShift.serve (h : AfterShift fw.xid data payload err) (hdepth : 0 < g.memDepth)
    (hmem : fw.memValid = true) :
    LaterAnswer data fw.mem (serve g tap fw (data :: payload)).1 err ∧
      (AxisToJtag.serve g tap fw (data :: payload)).2 = fw := by
  cases err with
  | none =>
    have hdec := h.idle_again hdepth hmem
    exact ⟨by simp [AxisToJtag.serve, hdec, LaterAnswer], by simp [AxisToJtag.serve, hdec]⟩
  | some e =>
    obtain ⟨hloc, hquery⟩ : _ ∧ idle g fw.xid fw.memValid data payload.isEmpty ≠ _ := h.idle_error
    have hown : OwnFrame fw data payload (some e) := h.own
    obtain ⟨w, hw, hreply, -⟩ : ∃ w, OwnAnswer data w (some e) ∧
        (AxisToJtag.serve g tap fw (data :: payload)).1 = [w] ∧ _ := hown.serve
    exact ⟨⟨w, hreply, hw⟩, by simp [serve_local hloc, hquery]⟩

theorem AllAfterShift.after (h : AllAfterShift fw.xid later) (hdepth : 0 < g.memDepth)
    (hmem : fw.memValid = true) : afterAll tap fw later = fw := by
  induction later with
  | nil => rfl
  | cons f later ih =>
    obtain ⟨data, payload, err, rfl, hf⟩ := h f (by simp)
    have hkeep : (AxisToJtag.serve g tap fw (data :: payload)).2 = fw := (hf.serve hdepth hmem).2
    rw [← List.singleton_append, afterAll_append, afterAll_singleton, hkeep]
    exact ih fun f hf => h f (by simp [hf])

theorem AllAfterShift.tidy (h : AllAfterShift fw.xid later) (hdepth : 0 < g.memDepth)
    (hmem : fw.memValid = true) : AllTidy tap fw later := by
  induction later with
  | nil => trivial
  | cons f later ih =>
    obtain ⟨data, payload, err, rfl, hf⟩ := h f (by simp)
    refine ⟨fun hex => ?_, ?_⟩
    · cases err with
      | none => exact absurd ((hf.idle_again hdepth hmem).symm.trans hex) (by simp)
      | some e =>
        obtain ⟨hloc, -⟩ : (idle g fw.xid fw.memValid data payload.isEmpty).isLocal = true ∧ _ :=
          hf.idle_error
        rw [hex] at hloc
        exact absurd hloc (by simp [Decision.isLocal])
    · rw [(hf.serve hdepth hmem).2]
      exact ih fun f hf => h f (by simp [hf])

theorem AllAfterShift.ne_nil (h : AllAfterShift x later) : ∀ f ∈ later, f ≠ [] := by
  intro f hf
  obtain ⟨data, payload, err, rfl, -⟩ := h f hf
  simp

/-- The entity is between or within frames after the shift that left `fw` behind. -/
inductive Keeps (fw : Fw g.W) (later : List (List (BitVec g.W))) (s : Dev g) : Prop
  | idle {fs : List (List (BitVec g.W))} (h : AtIdle s fw fs) (hfs : fs <:+ later)
  | sendRep {fs : List (List (BitVec g.W))} {w : BitVec g.W} {pending : Bool}
      {rem : List (BitVec g.W)} (h : AtSendRep s fw fs w pending rem) (hfs : fs <:+ later)
  | replay {fs : List (List (BitVec g.W))} {data : BitVec g.W} {k : ℕ} {rem : List (BitVec g.W)}
      (h : AtReplay s fw fs data k rem) (hfs : fs <:+ later)

theorem Keeps.stores (h : Keeps fw later s) : Stores s fw ∧ s.hist = fw.hist := by
  cases h with
  | idle h => exact ⟨h.stores, h.quiet.hist⟩
  | sendRep h => exact ⟨h.stores, h.quiet.hist⟩
  | replay h => exact ⟨h.stores, h.quiet.hist⟩

theorem Keeps.next (h : Keeps fw later s) (hall : AllAfterShift fw.xid later)
    (hdepth : 0 < g.memDepth) (hmem : fw.memValid = true) :
    Keeps fw later (s.cycle clkDiv2 tap ev) := by
  cases h with
  | @idle fs h hfs =>
    cases hv : (s.mAxisReq ev.1).tValid with
    | false => exact .idle (h.wait hv) hfs
    | true =>
      cases fs with
      | nil => simp [Dev.mAxisReq, h.src, Axis.init] at hv
      | cons f fs =>
        have hin : f ∈ later := hfs.subset (by simp)
        have hfs' : fs <:+ later := (List.suffix_cons f fs).trans hfs
        obtain ⟨data, payload, err, rfl, hf⟩ := hall f hin
        cases err with
        | none => exact .replay (h.replay hv (hf.idle_again hdepth hmem)) hfs'
        | some e =>
          have hat : AtSendRep (s.cycle clkDiv2 tap ev) _ fs _ true (data :: payload) :=
            h.answer hv hf.idle_error.1
          rw [(hf.serve hdepth hmem).2] at hat
          exact .sendRep hat hfs'
  | @sendRep fs w pending rem h hfs =>
    obtain ⟨hdone, hopen⟩ := h.next clkDiv2 tap ev
    by_cases hend : remNext (s.reqXfer ev.1) rem = [] ∧ (pending && !s.locConsumed ev.2) = false
    · exact .idle (hdone hend) hfs
    · exact .sendRep (hopen hend) hfs
  | @replay fs data k rem h hfs =>
    obtain ⟨hdone, hopen⟩ := h.next clkDiv2 tap ev
    by_cases hend : remNext (s.reqXfer ev.1) rem = [] ∧
        fw.mem.length < k + (s.locConsumed ev.2).toNat
    · exact .idle (hdone hend) hfs
    · exact .replay (hopen hend) hfs

/-- Idle with no more frames left to send than `later`, the entity has served the frames before
them, and since then nothing that lasts has changed. -/
theorem DevAt.keeps {fw0 : Fw g.W} {all pre : List (List (BitVec g.W))} {n : ℕ}
    (h : DevAt clkDiv2 tap fw0 all n s) (hst : s.r.state = .idle) (hall : ∀ f ∈ all, f ≠ [])
    (hcons : all = pre ++ later) (hfw : afterAll tap fw0 pre = fw)
    (hlater : AllAfterShift fw.xid later) (hdepth : 0 < g.memDepth) (hmem : fw.memValid = true)
    (hsrc : s.src.length ≤ (later.flatMap beats).length) : Keeps fw later s := by
  obtain ⟨fw', fs, hidle, hd⟩ := h.at_idle hst
  obtain ⟨served, hsplit, -, hserved⟩ := hd.served
  rw [hidle.src] at hsrc
  obtain ⟨l, rfl⟩ : fs <:+ later :=
    suffix_of_length (hsplit ▸ hall) (hsplit.symm.trans hcons) hsrc
  -- the frames of `later` that have been served already are all of `l`
  have hl : AllAfterShift fw.xid l := fun f hf => hlater f (by simp [hf])
  have hserved' : served = pre ++ l := by
    rw [hcons, ← List.append_assoc] at hsplit
    exact (List.append_cancel_right hsplit).symm
  have hsame : fw' = fw := by
    rw [← hserved, hserved', afterAll_append, hfw]
    exact hl.after hdepth hmem
  rw [hsame] at hidle
  exact .idle hidle (List.suffix_append _ _)

theorem Keeps.run {run : ℕ → Dev g} {evs : ℕ → Bool × Bool} {t0 t : ℕ}
    (hrun : ∀ t, run (t + 1) = (run t).cycle clkDiv2 tap (evs t)) (h : Keeps fw later (run t0))
    (hall : AllAfterShift fw.xid later) (hdepth : 0 < g.memDepth) (hmem : fw.memValid = true)
    (ht : t0 ≤ t) : Keeps fw later (run t) := by
  induction t, ht using Nat.le_induction with
  | base => exact h
  | succ t ht ih =>
    rw [hrun]
    exact ih.next hall hdepth hmem

section Simulation

variable {all : List (List (BitVec g.W))} {bufMem : ℕ → BitVec g.W} {memOut : BitVec g.W}
  {evs : ℕ → Bool × Bool} {t : ℕ}

/-- `P_RAM` uses no index that `bufMem` does not have. -/
def Dev.InBounds (s : Dev g) (ev : Bool × Bool) : Prop := s.InRange ev ∧ s.ReadsInside ev

instance (s : Dev g) (ev : Bool × Bool) : Decidable (s.InBounds ev) := by
  dsimp only [Dev.InBounds, Dev.InRange, Dev.ReadsInside]
  infer_instance

variable (clkDiv2 tap bufMem memOut all evs) in
/-- The run as VHDL has it: an index outside `bufMem` ends it. -/
def Dev.simulate : ℕ → Option (Dev g)
  | 0 => some (Dev.init g bufMem memOut (all.flatMap beats))
  | t + 1 => (Dev.simulate t).bind fun s =>
      if s.InBounds (evs t) then some (s.cycle clkDiv2 tap (evs t)) else none

theorem Dev.simulate_eq_run
    (h : ∀ u < t, (Dev.run clkDiv2 tap all bufMem memOut evs u).InBounds (evs u)) :
    Dev.simulate clkDiv2 tap all bufMem memOut evs t =
      some (Dev.run clkDiv2 tap all bufMem memOut evs t) := by
  induction t with
  | zero => rfl
  | succ t ih =>
    rw [Dev.simulate, ih fun u hu => h u (by omega), Option.bind_some, if_pos (h t (by omega)),
      Dev.run, Dev.run, runAt_succ]

theorem Dev.simulate_eq_none
    (h : ¬ (Dev.run clkDiv2 tap all bufMem memOut evs t).InBounds (evs t)) :
    ∃ u, Dev.simulate clkDiv2 tap all bufMem memOut evs u = none := by
  by_contra hcon
  refine h ?_
  have hsome : ∀ u, (Dev.run clkDiv2 tap all bufMem memOut evs u).InBounds (evs u) := by
    intro u
    induction u using Nat.strong_induction_on with
    | h u ih =>
      by_contra hno
      refine hcon ⟨u + 1, ?_⟩
      rw [Dev.simulate, Dev.simulate_eq_run ih, Option.bind_some, if_neg hno]
  exact hsome t

/-- None of the frames is a repeat. -/
def NoRepeat (x : BitVec 8) (later : List (List (BitVec g.W))) : Prop :=
  ∀ data payload, data :: payload ∈ later → ¬ AfterShift x data payload none

theorem AllAfterShift.nonePlaysFull_iff (h : AllAfterShift fw.xid later) (hdepth : 0 < g.memDepth)
    (hmem : fw.memValid = true) (hle : fw.mem.length ≤ g.memDepth) :
    NonePlaysFull tap fw later ↔ fw.mem.length < g.memDepth ∨ NoRepeat fw.xid later := by
  induction later with
  | nil => simp [NonePlaysFull, NoRepeat]
  | cons f later ih =>
    obtain ⟨data, payload, err, rfl, hf⟩ := h f (by simp)
    have hrest := ih fun f hf => h f (by simp [hf])
    have hkeep : (AxisToJtag.serve g tap fw (data :: payload)).2 = fw := (hf.serve hdepth hmem).2
    rw [NonePlaysFull, hkeep, hrest]
    cases err with
    | none =>
      have hdec := hf.idle_again hdepth hmem
      have hyes : ¬ NoRepeat fw.xid ((data :: payload) :: later) :=
        fun hno => hno data payload (by simp) hf
      simp only [PlaysFull, hdec, true_and, hyes, or_false]
      constructor
      · rintro ⟨hne, -⟩
        omega
      · intro hlt
        exact ⟨hlt.ne, Or.inl hlt⟩
    | some e =>
      have hno : ¬ AfterShift fw.xid data payload none := by
        intro hagain
        have hloc : (idle g fw.xid fw.memValid data payload.isEmpty).isLocal = true ∧ _ :=
          hf.idle_error
        rw [hagain.idle_again hdepth hmem] at hloc
        exact absurd hloc.1 (by simp [Decision.isLocal])
      have hdec : idle g fw.xid fw.memValid data payload.isEmpty ≠ .replay := by
        intro hdec
        have hloc : (idle g fw.xid fw.memValid data payload.isEmpty).isLocal = true ∧ _ :=
          hf.idle_error
        rw [hdec] at hloc
        exact absurd hloc.1 (by simp [Decision.isLocal])
      have hcons : NoRepeat fw.xid ((data :: payload) :: later) ↔ NoRepeat fw.xid later := by
        refine ⟨fun hall d p hin => hall d p (List.mem_cons_of_mem _ hin), fun hall d p hin => ?_⟩
        rcases List.mem_cons.mp hin with heq | hin
        · obtain ⟨rfl, rfl⟩ := List.cons.inj heq
          exact hno
        · exact hall d p hin
      simp only [PlaysFull, hdec, false_and, not_false_eq_true, true_and, hcons]

end Simulation

/-- What is to be said of a run on the frames `before`, the last of which is a shift with the ID `x`
that returned `words`, and on `later`: the run goes on; each repeat is answered by the repeat's
header and the same words, each frame with an error by one word; neither moves TCK, and from the end
of the shift on the memory, `widx`, `xid` and `memValid` stay as they are.  Headers are looked at on
frame boundaries only.  All frames are answered in the end when both neighbours act again and
again. -/
structure PlaysBack (tap : Tap) (evs : ℕ → Bool × Bool) (before later : List (List (BitVec g.W)))
    (x : BitVec 8) (words : List (BitVec g.W)) (sim : ℕ → Option (Dev g)) : Prop where
  answered : ∀ l d p l' err, later = l ++ (d :: p) :: l' → AfterShift x d p err →
    ∃ reply, LaterAnswer d words reply err ∧
      answers tap (Fw.init g.W) (before ++ l ++ [d :: p]) =
        answers tap (Fw.init g.W) (before ++ l) ++ beats reply
  goes : ∀ t, ∃ s, sim t = some s ∧ s.out <+: answers tap (Fw.init g.W) (before ++ later) ∧
    s.hist <+: (afterAll tap (Fw.init g.W) before).hist ∧
    (s.r.state = .idle →
      ∃ served rest, before ++ later = served ++ rest ∧ Between tap s served rest)
  keeps : ∀ t0 s0, sim t0 = some s0 → s0.r.state = .idle →
    s0.src.length ≤ (later.flatMap beats).length → ∀ t ≥ t0, ∃ s, sim t = some s ∧
      s.r.xid = x ∧ s.r.memValid = true ∧ s.r.widx = words.length ∧
      (∀ i < words.length, s.bufMem i = words.getD i 0) ∧
      s.hist = (afterAll tap (Fw.init g.W) before).hist
  ends : Fair evs → ∃ T, ∀ t ≥ T, ∃ s, sim t = some s ∧ s.src = [] ∧
    s.out = answers tap (Fw.init g.W) (before ++ later) ∧
    s.hist = (afterAll tap (Fw.init g.W) before).hist

section PlaysBack

variable {bufMem : ℕ → BitVec g.W} {memOut : BitVec g.W} {evs : ℕ → Bool × Bool}
  {before : List (List (BitVec g.W))}

/-- What is read inside the memory is what has been stored there. -/
theorem playsBack_of_readsInside (hdepth : 0 < g.memDepth) (hD : 0 < clkDiv2)
    (hall : ∀ f ∈ before ++ later, f ≠ [])
    (hs : ∀ t, (Dev.run clkDiv2 tap (before ++ later) bufMem memOut evs t).Sound (evs t))
    (hb : ∀ t, (Dev.run clkDiv2 tap (before ++ later) bufMem memOut evs t).InBounds (evs t))
    (hfw : afterAll tap (Fw.init g.W) before = fw) (hlater : AllAfterShift fw.xid later)
    (hmem : fw.memValid = true) :
    PlaysBack tap evs before later fw.xid fw.mem
      (Dev.simulate clkDiv2 tap (before ++ later) bufMem memOut evs) := by
  set run := Dev.run clkDiv2 tap (before ++ later) bufMem memOut evs
  have hin : ∀ t, (run t).InRange (evs t) := fun t => (hb t).1
  have hat : ∀ t, ∃ n, DevAt clkDiv2 tap (Fw.init g.W) (before ++ later) n (run t) :=
    DevAt.run hD hall hs hin
  have hsim : ∀ t, Dev.simulate clkDiv2 tap (before ++ later) bufMem memOut evs t = some (run t) :=
    fun t => Dev.simulate_eq_run fun u _ => hb u
  have hafter : afterAll tap (Fw.init g.W) (before ++ later) = fw := by
    rw [afterAll_append, hfw]
    exact hlater.after hdepth hmem
  refine ⟨?_, ?_, ?_, ?_⟩
  · intro l d p l' err hsplit hf
    have hl : AllAfterShift fw.xid l := fun f hf => hlater f (by rw [hsplit]; simp [hf])
    have hkeep : afterAll tap (Fw.init g.W) (before ++ l) = fw := by
      rw [afterAll_append, hfw]
      exact hl.after hdepth hmem
    obtain ⟨hreply, -⟩ : LaterAnswer d fw.mem (serve g tap fw (d :: p)).1 err ∧ _ :=
      hf.serve hdepth hmem
    refine ⟨_, hreply, ?_⟩
    rw [answers_append, hkeep, answers_singleton]
  · intro t
    obtain ⟨n, hat⟩ := hat t
    have hbeg := hat.beginning (hs t)
    rw [hafter] at hbeg
    rw [hfw]
    exact ⟨_, hsim t, hbeg.1, hbeg.2, hat.between⟩
  · intro t0 s0 hs0 hst hsrc t ht
    obtain rfl : run t0 = s0 := Option.some.inj ((hsim t0).symm.trans hs0)
    obtain ⟨n, hat⟩ := hat t0
    have hkeeps : Keeps fw later (run t0) := hat.keeps hst hall rfl hfw hlater hdepth hmem hsrc
    have hkeeps' : Keeps fw later (run t) :=
      hkeeps.run (fun t => runAt_succ t) hlater hdepth hmem ht
    obtain ⟨hst', hhist⟩ := hkeeps'.stores
    rw [hfw]
    exact ⟨_, hsim t, hst'.xid, hst'.memValid.trans hmem, hst'.widx hmem, hst'.mem hmem, hhist⟩
  · intro hfair
    obtain ⟨T, hend⟩ := Dev.run_ends hD hall hs hin hfair
    rw [hafter] at hend
    rw [hfw]
    exact ⟨T, fun t ht => ⟨_, hsim t, hend t ht⟩⟩

theorem PlaysBack.inBounds {x : BitVec 8} {words : List (BitVec g.W)}
    (h : PlaysBack tap evs before later x words
      (Dev.simulate clkDiv2 tap (before ++ later) bufMem memOut evs)) (t : ℕ) :
    (Dev.run clkDiv2 tap (before ++ later) bufMem memOut evs t).InBounds (evs t) := by
  by_contra hout
  obtain ⟨u, hnone⟩ := Dev.simulate_eq_none hout
  obtain ⟨s, hsome, -⟩ := h.goes u
  rw [hnone] at hsome
  cases hsome

end PlaysBack

/-- After a shift whose `N` TDO words fit into the memory, the stored answer is played back as it
should be when it leaves a word of the memory free or no repeat comes, and when both neighbours act
again and again only then: the read index runs one word ahead.  The frames up to the shift do not
end the run, and they are tidy, or else every step is sound. -/
theorem replay_fidelity_iff {a : ℕ} (ha : g.W = 2 ^ a) (hdepth : 0 < g.memDepth)
    (hD : 0 < clkDiv2) (tap : Tap) (bufMem : ℕ → BitVec g.W) (memOut : BitVec g.W)
    (evs : ℕ → Bool × Bool) (pre later : List (List (BitVec g.W))) (data : BitVec g.W)
    (payload : List (BitVec g.W)) (hver : getVersion data = proVersn)
    (hcmd : getCommand data = cmdTrans) (hcheck : checkLen g data = true)
    (hnew : xidIsNew g data (afterAll tap (Fw.init g.W) pre).xid
      (afterAll tap (Fw.init g.W) pre).memValid = true)
    (hpay : 2 ≤ payload.length) (hpre : ∀ f ∈ pre, f ≠ [])
    (hlater : AllAfterShift (getXid data) later)
    (hplays : NonePlaysFull tap (Fw.init g.W) pre)
    (hgood : AllTidy tap (Fw.init g.W) (pre ++ [data :: payload]) ∨
      ∀ t, (Dev.run clkDiv2 tap (pre ++ [data :: payload] ++ later) bufMem memOut evs t).Sound
        (evs t)) :
    let words := shiftTdo g tap (afterAll tap (Fw.init g.W) pre).hist data payload
    let before := pre ++ [data :: payload]
    let sim := Dev.simulate clkDiv2 tap (before ++ later) bufMem memOut evs
    1 ≤ words.length ∧ words.length ≤ g.memDepth ∧
    (words.length < g.memDepth ∨ NoRepeat (getXid data) later →
      PlaysBack tap evs before later (getXid data) words sim) ∧
    (Fair evs → (PlaysBack tap evs before later (getXid data) words sim ↔
      words.length < g.memDepth ∨ NoRepeat (getXid data) later)) := by
  intro words before sim
  have hne : payload.isEmpty = false := by
    cases payload with
    | nil => simp at hpay
    | cons => rfl
  have hex := idle_execute hver hcmd hcheck hnew
  rw [← hne] at hex
  set fw := afterAll tap (Fw.init g.W) before with hfw
  have hserve : fw = ⟨getXid data, true, words, fw.hist⟩ := by
    simp only [hfw, before, afterAll_append, afterAll_singleton, serve_execute hex (by omega)]
    simp [hdepth, words]
  have hxid : fw.xid = getXid data := by rw [hserve]
  have hmem : fw.memValid = true := by rw [hserve]
  have hwords : fw.mem = words := by rw [hserve]
  have hlater' : AllAfterShift fw.xid later := hxid ▸ hlater
  have hall : ∀ f ∈ before ++ later, f ≠ [] :=
    List.forall_mem_append.mpr
      ⟨List.forall_mem_append.mpr ⟨hpre, by simp⟩, hlater.ne_nil⟩
  have hfit : ∀ f ∈ before ++ later, Fits g f := fun f hf => fits_of_width ha (hall f hf)
  set run := Dev.run clkDiv2 tap (before ++ later) bufMem memOut evs with hrun
  have hs : ∀ t, (run t).Sound (evs t) := by
    rcases hgood with hT | hs
    · have hT' : AllTidy tap (Fw.init g.W) (before ++ later) :=
        allTidy_append.mpr ⟨hT, hlater'.tidy hdepth hmem⟩
      exact fun t => (Dev.run_sound hD hfit hT' t).1
    · exact hs
  have hcount : words.length = (taskOf (afterAll tap (Fw.init g.W) pre) data payload).count :=
    shiftTdo_length tap
  have hpos : 1 ≤ words.length := by
    rw [hcount]
    exact Task.count_pos g.W_pos hpay
  have hle : words.length ≤ g.memDepth := by
    rw [hcount, ← taskOf_count]
    rcases hfit (data :: payload) (by simp [before]) hcheck with h0 | hle
    · omega
    · exact hle
  -- the run goes on when no frame is answered from a full memory
  have hfull : NonePlaysFull tap (Fw.init g.W) (before ++ later) ↔
      words.length < g.memDepth ∨ NoRepeat (getXid data) later := by
    have hshift : NonePlaysFull tap (Fw.init g.W) before := by
      refine nonePlaysFull_append.mpr ⟨hplays, fun hp => ?_, trivial⟩
      exact absurd (hex.symm.trans hp.1) (by simp)
    rw [nonePlaysFull_append, ← hfw, hlater'.nonePlaysFull_iff hdepth hmem (hwords ▸ hle), hwords,
      hxid]
    exact and_iff_right hshift
  have hplay : words.length < g.memDepth ∨ NoRepeat (getXid data) later →
      PlaysBack tap evs before later (getXid data) words sim := by
    intro hcond
    rw [← hxid, ← hwords]
    exact playsBack_of_readsInside hdepth hD hall hs
      (fun t => ⟨Dev.run_inRange hD hall hfit hs t,
        Dev.run_readsInside hdepth hD hall hfit hs (hfull.mpr hcond) t⟩) hfw.symm hlater' hmem
  refine ⟨hpos, hle, hplay, fun hfair => ⟨fun hp => ?_, hplay⟩⟩
  by_contra hcon
  obtain ⟨t, hout⟩ := Dev.run_readsOutside hD hall hfit hs hfair (hfull.not.mpr hcon)
  exact hout (hp.inBounds t).2

/-- A shift of eight bits and its repeat, for a memory of one word: the answer of the shift is sent,
and the run ends before its word has been sent again. -/
theorem full_answer_ends_run :
    let before : List (List (BitVec oneWord.W)) := [[0x10100007, 1, 2]]
    let later : List (List (BitVec oneWord.W)) := [[0x10100007, 1, 2]]
    let sim := Dev.simulate 1 (fun _ _ _ => false) (before ++ later) (fun _ => 0) 0
      fun _ => (true, true)
    AllAfterShift (getXid (0x10100007 : BitVec oneWord.W)) later ∧
      shiftTdo oneWord (fun _ _ _ => false) [] 0x10100007 [1, 2] = [0] ∧
      (∃ t < 200, (sim t).map Dev.out = some [(0x10100007, false), (0, true)]) ∧
      ¬ PlaysBack (fun _ _ _ => false) (fun _ => (true, true)) before later
        (getXid (0x10100007 : BitVec oneWord.W)) [0] sim := by
  intro before later sim
  refine ⟨?_, by decide +kernel, by decide +kernel, fun hp => ?_⟩
  · intro f hf
    obtain rfl := List.mem_singleton.mp hf
    exact ⟨_, _, _, rfl, .again (by decide) (by decide) (by decide) (by decide) (by simp)⟩
  · obtain ⟨s, hsome, -⟩ := hp.goes 200
    have hnone : (sim 200).isNone = true := by decide +kernel
    rw [hsome] at hnone
    cases hnone

/-- A shift of 40 bits, a frame of a later version and a repeat of the shift with one word. -/
theorem replay_fidelity_forty_bits :
    ∃ T, ∀ t ≥ T, ∃ s, Dev.simulate (g := fourOctets) 1 (fun _ _ tdi => tdi)
        ([] ++ [[0x10100027, 1, 2, 3, 4]] ++ [[0x40500000, 7], [0x10100003, 0]])
        (fun _ => 0) 0 (fun _ => (true, true)) t = some s ∧
      s.out = [(0x10100027, false), (2, false), (4, true), (0x20500001, true), (0x10100003, false),
        (2, false), (4, true)] := by
  have hT : AllTidy (g := fourOctets) (fun _ _ tdi => tdi) (Fw.init _)
      ([] ++ [[0x10100027, 1, 2, 3, 4]]) := ⟨fun _ => Or.inl rfl, trivial⟩
  have hlater : AllAfterShift (g := fourOctets) (getXid (0x10100027 : BitVec fourOctets.W))
      [[0x40500000, 7], [0x10100003, 0]] := by
    intro f hf
    rcases List.mem_cons.mp hf with rfl | hf
    · exact ⟨_, _, _, rfl, .badVersion (by decide)⟩
    · obtain rfl := List.mem_singleton.mp hf
      exact ⟨_, _, _, rfl, .again (by decide) (by decide) (by decide) (by decide) (by simp)⟩
  obtain ⟨-, -, hplays, -⟩ := replay_fidelity_iff (g := fourOctets) (a := 5) rfl (by decide)
    one_pos (fun _ _ tdi => tdi) (fun _ => 0) 0 (fun _ => (true, true)) [] _ 0x10100027
    [1, 2, 3, 4] (by decide) (by decide) (by decide) rfl (by decide) (by simp) hlater trivial
    (Or.inl hT)
  obtain ⟨T, hrun⟩ := (hplays (Or.inl (by decide))).ends
    ⟨fun t => ⟨t, le_rfl, rfl⟩, fun t => ⟨t, le_rfl, rfl⟩⟩
  refine ⟨T, fun t ht => ?_⟩
  obtain ⟨s, hsome, -, hout, -⟩ := hrun t ht
  exact ⟨s, hsome, hout.trans (by decide +kernel)⟩

end XvcSupport.AxisToJtag
