import XvcSupport.Whole

namespace XvcSupport.AxisJtagDebugBridgeStub

open AxisToJtag AxisToJtagPkg

def errNotPresent : BitVec 20 := 4

inductive StateType
  | ready
  | skip
  | reply
deriving DecidableEq, Repr

structure Reg where
  state : StateType
  repValid : Bool
  repData : BitVec 32
  reqReady : Bool
deriving DecidableEq

def Reg.init : Reg where
  state := .ready
  repValid := false
  repData := 0
  reqReady := true

variable {W : ℕ}

/-- `repData` for the first word of a frame. -/
def replyTo (data : BitVec W) : BitVec 32 :=
  if getVersion data ≠ proVersn then setErr errBadVersion (setVersion proVersn 0)
  else if getCommand data ≠ cmdQuery then setErr errBadCommand 0
  else setErr errNotPresent 0

/-- `U_COMB`. -/
def Reg.next (r : Reg) (m : Axis W) (tReady : Bool) : Reg :=
  match r.state with
  | .ready =>
    if m.tValid then
      { state := .reply
        repValid := true
        repData := replyTo m.tData
        reqReady := r.reqReady && !m.tLast }
    else r
  | .reply =>
    let reqReady := r.reqReady && !(m.tValid && m.tLast && r.reqReady)
    if tReady then
      if reqReady then { r with repValid := false, reqReady := reqReady, state := .skip }
      else { r with repValid := false, reqReady := true, state := .ready }
    else { r with reqReady := reqReady }
  | .skip => if m.tValid && m.tLast then { r with state := .ready } else r

/-- The registers, the words the master has still to send, and the words the slave has taken. -/
structure Sys (W : ℕ) where
  r : Reg
  src : List (BitVec W × Bool)
  offer : Bool
  out : List (BitVec 32 × Bool)

def Sys.init (src : List (BitVec W × Bool)) : Sys W where
  r := .init
  src := src
  offer := false
  out := []

/-- The request stream: a word that has been offered stays until it is taken. -/
def Sys.mAxisReq (s : Sys W) (vld : Bool) : Axis W :=
  match s.src with
  | [] => Axis.init W
  | (data, last) :: _ => ⟨s.offer || vld, last, data⟩

def Sys.mAxisTdo (s : Sys W) : Axis 32 := ⟨s.r.repValid, true, s.r.repData⟩

def Sys.reqXfer (s : Sys W) (vld : Bool) : Bool := (s.mAxisReq vld).tValid && s.r.reqReady

/-- One cycle of the clock; the events say whether the master offers a word and the slave is
ready. -/
def Sys.cycle (s : Sys W) (ev : Bool × Bool) : Sys W where
  r := s.r.next (s.mAxisReq ev.1) ev.2
  src := if s.reqXfer ev.1 then s.src.tail else s.src
  offer := (s.mAxisReq ev.1).tValid && !s.reqXfer ev.1
  out :=
    if s.mAxisTdo.tValid && ev.2 then s.out ++ [(s.mAxisTdo.tData, s.mAxisTdo.tLast)] else s.out

def Sys.run (frames : List (List (BitVec W))) (evs : ℕ → Bool × Bool) (t : ℕ) : Sys W :=
  runAt Sys.cycle (Sys.init (frames.flatMap beats)) evs t

def answer (frame : List (BitVec W)) : BitVec 32 × Bool := (replyTo (frame.headD 0), true)

/-- The words of the answer that is on offer. -/
def Sys.offered (s : Sys W) : List (BitVec 32 × Bool) :=
  if s.r.repValid then [(s.r.repData, true)] else []

/-- Between frames: the frames `done` have been answered, and `rest` are still to come. -/
structure AtReady (s : Sys W) (done rest : List (List (BitVec W))) : Prop where
  state : s.r.state = .ready
  repValid : s.r.repValid = false
  reqReady : s.r.reqReady = true
  src : s.src = rest.flatMap beats
  out : s.out = done.map answer

/-- Within the last frame of `done`, of which `tail` is still to come; `open_` says that its answer
is on offer. -/
structure AtFrame (s : Sys W) (open_ : Bool) (done rest : List (List (BitVec W)))
    (tail : List (BitVec W)) : Prop where
  state : s.r.state = if open_ then .reply else .skip
  repValid : s.r.repValid = open_
  reqReady : s.r.reqReady = !tail.isEmpty
  pending : open_ = false → tail ≠ []
  src : s.src = beats tail ++ rest.flatMap beats
  out : s.out ++ s.offered = done.map answer

/-- The stages, with a number that comes down to zero. -/
inductive At (frames : List (List (BitVec W))) (s : Sys W) : ℕ → Prop
  | ready (done rest : List (List (BitVec W))) : frames = done ++ rest → AtReady s done rest →
      At frames s (2 * s.src.length)
  | frame (open_ : Bool) (done rest : List (List (BitVec W))) (f tail : List (BitVec W)) :
      frames = (done ++ [f]) ++ rest → tail <:+ f → tail ≠ f →
      AtFrame s open_ (done ++ [f]) rest tail → At frames s (2 * s.src.length + open_.toNat)

variable {frames done rest : List (List (BitVec W))} {f tail : List (BitVec W)} {w : BitVec W}
  {ws : List (BitVec W)} {s : Sys W} {ev : Bool × Bool}

theorem Sys.mAxisReq_cons {last : Bool} {src : List (BitVec W × Bool)}
    (h : s.src = (w, last) :: src) (vld : Bool) : s.mAxisReq vld = ⟨s.offer || vld, last, w⟩ := by
  simp [Sys.mAxisReq, h]

theorem Sys.mAxisReq_nil (h : s.src = []) (vld : Bool) : s.mAxisReq vld = Axis.init W := by
  simp [Sys.mAxisReq, h]

theorem AtReady.cycle (hs : AtReady s done ((w :: ws) :: rest)) (ev : Bool × Bool) :
    if s.offer || ev.1 then AtFrame (s.cycle ev) true (done ++ [w :: ws]) rest ws
    else AtReady (s.cycle ev) done ((w :: ws) :: rest) := by
  obtain ⟨hstate, hval, hreq, hsrc, hout⟩ := hs
  have hsrc' : s.src = (w, ws.isEmpty) :: (beats ws ++ rest.flatMap beats) := by
    simpa using hsrc
  have hm := Sys.mAxisReq_cons hsrc' ev.1
  cases hv : s.offer || ev.1 with
  | true =>
    rw [hv] at hm
    have hr : (s.cycle ev).r = ⟨.reply, true, replyTo w, !ws.isEmpty⟩ := by
      simp [Sys.cycle, Reg.next, hstate, hm, hreq]
    refine ⟨by rw [hr]; rfl, by rw [hr], by rw [hr], fun h => by simp at h, ?_, ?_⟩
    · simp [Sys.cycle, Sys.reqXfer, hm, hreq, hsrc']
    · have hsame : (s.cycle ev).out = s.out := by simp [Sys.cycle, Sys.mAxisTdo, hval]
      rw [Sys.offered, hr, hsame, hout]
      simp [answer]
  | false =>
    rw [hv] at hm
    have hr : (s.cycle ev).r = s.r := by simp [Sys.cycle, Reg.next, hstate, hm]
    refine ⟨by rw [hr, hstate], by rw [hr, hval], by rw [hr, hreq], ?_, ?_⟩
    · simp [Sys.cycle, Sys.reqXfer, hm, hsrc]
    · simp [Sys.cycle, Sys.mAxisTdo, hval, hout]

theorem AtReady.cycle_nil (hs : AtReady s done []) (ev : Bool × Bool) :
    AtReady (s.cycle ev) done [] := by
  obtain ⟨hstate, hval, hreq, hsrc, hout⟩ := hs
  have hm := Sys.mAxisReq_nil (s := s) hsrc ev.1
  have hr : (s.cycle ev).r = s.r := by simp [Sys.cycle, Reg.next, hstate, hm, Axis.init]
  refine ⟨by rw [hr, hstate], by rw [hr, hval], by rw [hr, hreq], ?_, ?_⟩
  · simp [Sys.cycle, Sys.reqXfer, hm, hsrc, Axis.init]
  · simp [Sys.cycle, Sys.mAxisTdo, hval, hout]

def Sys.left (s : Sys W) (vld : Bool) (tail : List (BitVec W)) : List (BitVec W) :=
  if s.offer || vld then tail.tail else tail

/-- The registers within a frame: `open_` and `more` say what has still to happen, and the stub is
ready again when both have. -/
theorem Reg.next_absorb {open_ more : Bool} (h : open_ || more) (d : BitVec 32) (m : Axis W)
    (rdy : Bool) :
    Reg.next ⟨if open_ then .reply else .skip, open_, d, more⟩ m rdy =
      if (open_ && !rdy) || (more && !(m.tValid && m.tLast)) then
        ⟨if open_ && !rdy then .reply else .skip, open_ && !rdy, d,
          more && !(m.tValid && m.tLast)⟩
      else ⟨.ready, false, d, true⟩ := by
  cases open_ with
  | true =>
    cases rdy <;> cases more <;> cases hv : m.tValid <;> cases hl : m.tLast <;>
      simp [Reg.next, hv, hl]
  | false =>
    obtain rfl : more = true := by simpa using h
    cases hv : m.tValid <;> cases hl : m.tLast <;> simp [Reg.next, hv, hl]

/-- Within a frame the rest of it is absorbed, whether or not the answer has been taken; the stub
is ready for the next frame when both have happened. -/
theorem AtFrame.cycle {open_ : Bool} (hs : AtFrame s open_ done rest tail) (ev : Bool × Bool) :
    if (open_ && !ev.2) || !(s.left ev.1 tail).isEmpty then
      AtFrame (s.cycle ev) (open_ && !ev.2) done rest (s.left ev.1 tail)
    else AtReady (s.cycle ev) done rest := by
  obtain ⟨hstate, hval, hreq, hpend, hsrc, hout⟩ := hs
  have hregs : s.r = ⟨if open_ then .reply else .skip, open_, s.r.repData, !tail.isEmpty⟩ := by
    rw [← hstate, ← hval, ← hreq]
  have hmore : open_ || !tail.isEmpty := by
    cases open_ with
    | true => rfl
    | false => simpa using hpend rfl
  have hsrc' : (s.cycle ev).src = beats (s.left ev.1 tail) ++ rest.flatMap beats := by
    cases tail with
    | nil => simp [Sys.cycle, Sys.reqXfer, Sys.left, hreq, hsrc]
    | cons w ws =>
      have hm := Sys.mAxisReq_cons (s := s) (by rw [hsrc, beats_cons]; rfl) ev.1
      cases hv : s.offer || ev.1 <;>
        simp [Sys.cycle, Sys.reqXfer, Sys.left, hm, hreq, hsrc, hv]
  have hleft : (!tail.isEmpty && !((s.mAxisReq ev.1).tValid && (s.mAxisReq ev.1).tLast)) =
      !(s.left ev.1 tail).isEmpty := by
    cases tail with
    | nil => simp [Sys.left]
    | cons w ws =>
      have hm := Sys.mAxisReq_cons (s := s) (by rw [hsrc, beats_cons]; rfl) ev.1
      cases hv : s.offer || ev.1 <;> simp [Sys.left, hm, hv]
  have hreg : (s.cycle ev).r = _ := congrArg (fun r => Reg.next r (s.mAxisReq ev.1) ev.2) hregs
  rw [Reg.next_absorb hmore, hleft] at hreg
  have hout' : (s.cycle ev).out ++ (if open_ && !ev.2 then [(s.r.repData, true)] else []) =
      done.map answer := by
    have hstep : (s.cycle ev).out =
        s.out ++ if open_ && ev.2 then [(s.r.repData, true)] else [] := by
      simp only [Sys.cycle, Sys.mAxisTdo, hval]
      split_ifs <;> simp
    rw [hstep, ← hout, Sys.offered, hval]
    cases open_ <;> cases ev.2 <;> simp
  split_ifs with hc
  · rw [if_pos hc] at hreg
    refine ⟨by rw [hreg], by rw [hreg], by rw [hreg], ?_, hsrc', ?_⟩
    · intro hdone
      rw [hdone] at hc
      simpa using hc
    · rw [Sys.offered, hreg]
      exact hout'
  · rw [if_neg hc] at hreg
    obtain ⟨h1, h2⟩ : (open_ && !ev.2) = false ∧ (s.left ev.1 tail).isEmpty = true := by
      simpa using hc
    rw [h1] at hout'
    rw [List.isEmpty_iff.mp h2] at hsrc'
    exact ⟨by rw [hreg], by rw [hreg], by rw [hreg], hsrc', by simpa using hout'⟩

/-- The events that bring the stub on: a word, or a slave that takes the answer to a frame that
has ended. -/
def Moves (s : Sys W) (ev : Bool × Bool) : Prop := if s.r.reqReady then ev.1 = true else ev.2 = true

/-- After the cycle the stub is in a stage again, and no further from the end. -/
def Advances (frames : List (List (BitVec W))) (n : ℕ) (s : Sys W) (ev : Bool × Bool) : Prop :=
  ∃ n', At frames (s.cycle ev) n' ∧ n' ≤ n ∧ (Moves s ev → 0 < n → n' < n)

theorem AtReady.advances (hs : AtReady s done ((w :: ws) :: rest))
    (hall : frames = done ++ (w :: ws) :: rest) (ev : Bool × Bool) :
    Advances frames (2 * s.src.length) s ev := by
  have hs' := hs.cycle ev
  have hlen := congrArg List.length hs.src
  cases hv : s.offer || ev.1 with
  | true =>
    rw [hv, if_pos rfl] at hs'
    have hlen' := congrArg List.length hs'.src
    refine ⟨_, .frame true done rest (w :: ws) ws (by simp [hall]) (List.suffix_cons w ws)
      (by simp) hs', ?_, ?_⟩
    all_goals
      simp at hlen hlen' ⊢
      omega
  | false =>
    rw [hv, if_neg (by simp)] at hs'
    refine ⟨_, .ready done _ hall hs', ?_, ?_⟩
    · rw [hs'.src, hs.src]
    · intro hmove
      rw [Moves, hs.reqReady, if_pos rfl] at hmove
      simp [hmove] at hv

theorem AtFrame.advances {open_ : Bool} (hs : AtFrame s open_ (done ++ [f]) rest tail)
    (hall : frames = (done ++ [f]) ++ rest) (htail : tail <:+ f) (hlt : tail ≠ f)
    (ev : Bool × Bool) : Advances frames (2 * s.src.length + open_.toNat) s ev := by
  have hs' := hs.cycle ev
  have hsuffix : s.left ev.1 tail <:+ tail := by
    unfold Sys.left
    split_ifs
    · exact List.tail_suffix tail
    · exact List.suffix_rfl
  have hlen := congrArg List.length hs.src
  rw [List.length_append, beats_length] at hlen
  have hle := hsuffix.length_le
  have hmove : Moves s ev → (s.left ev.1 tail).length < tail.length ∨
      open_ = true ∧ ev.2 = true := by
    intro h
    rw [Moves, hs.reqReady] at h
    cases tail with
    | nil =>
      have hopen : open_ = true := by
        by_contra hc
        exact hs.pending (by simpa using hc) rfl
      exact .inr ⟨hopen, by simpa using h⟩
    | cons w ws =>
      have hev : ev.1 = true := by simpa using h
      simp [Sys.left, hev]
  by_cases hc : ((open_ && !ev.2) || !(s.left ev.1 tail).isEmpty) = true
  · rw [if_pos hc] at hs'
    have hlen' := congrArg List.length hs'.src
    rw [List.length_append, beats_length] at hlen'
    refine ⟨_, .frame _ done rest f _ hall (hsuffix.trans htail) ?_ hs', ?_, ?_⟩
    · intro heq
      exact hlt (htail.eq_of_length_le (by rw [← heq]; exact hle))
    · cases open_ <;> cases ev.2 <;> simp <;> omega
    · intro hm _
      rcases hmove hm with h | ⟨h1, h2⟩
      · cases open_ <;> cases ev.2 <;> simp <;> omega
      · simp [h1, h2]
        omega
  · rw [if_neg hc] at hs'
    obtain ⟨-, hempty⟩ : (open_ && !ev.2) = false ∧ (s.left ev.1 tail).isEmpty = true := by
      simpa using hc
    have hlen' := congrArg List.length hs'.src
    rw [List.isEmpty_iff] at hempty
    rw [hempty] at hmove
    refine ⟨_, .ready (done ++ [f]) rest hall hs', by omega, ?_⟩
    intro hm _
    rcases hmove hm with h | ⟨h1, -⟩
    · simp at h
      omega
    · simp [h1]
      omega

theorem At.cycle {n : ℕ} (hne : ∀ f ∈ frames, f ≠ []) (h : At frames s n) (ev : Bool × Bool) :
    Advances frames n s ev := by
  cases h with
  | ready done rest hall hs =>
    cases rest with
    | nil =>
      have hs' := hs.cycle_nil ev
      refine ⟨_, .ready done [] hall hs', ?_, ?_⟩
      · rw [hs'.src, hs.src]
      · rw [hs.src]
        simp
    | cons f rest =>
      cases f with
      | nil => exact absurd rfl (hne [] (by rw [hall]; simp))
      | cons w ws => exact hs.advances hall ev
  | frame open_ done rest f tail hall htail hlt hs => exact hs.advances hall htail hlt ev

/-- What has been answered, the answer on offer included, are the frames that have been started;
no word behind them has been taken. -/
def Aligned (frames : List (List (BitVec W))) (s : Sys W) : Prop :=
  ∃ started rest, frames = started ++ rest ∧ s.out ++ s.offered = started.map answer ∧
    if s.r.state = .ready then s.src = rest.flatMap beats
    else ∃ done f tail, started = done ++ [f] ∧ tail <:+ f ∧ tail ≠ f ∧
      s.src = beats tail ++ rest.flatMap beats

theorem At.aligned {n : ℕ} (h : At frames s n) : Aligned frames s := by
  cases h with
  | ready done rest hall hs =>
    refine ⟨done, rest, hall, ?_, ?_⟩
    · rw [hs.out, Sys.offered, hs.repValid]
      simp
    · rw [if_pos hs.state]
      exact hs.src
  | frame open_ done rest f tail hall htail hlt hs =>
    refine ⟨done ++ [f], rest, hall, hs.out, ?_⟩
    have hstate : s.r.state ≠ .ready := by
      rw [hs.state]
      cases open_ <;> simp
    rw [if_neg hstate]
    exact ⟨done, f, tail, rfl, htail, hlt, hs.src⟩

theorem At.finished (hne : ∀ f ∈ frames, f ≠ []) (h : At frames s 0) :
    s.src = [] ∧ s.out = frames.map answer := by
  generalize hn : 0 = n at h
  cases h with
  | ready done rest hall hs =>
    have hsrc : s.src = [] := List.length_eq_zero_iff.mp (by omega)
    have hrest : rest = [] := by
      cases rest with
      | nil => rfl
      | cons f rest =>
        have hbeats := hs.src
        rw [hsrc, List.flatMap_cons] at hbeats
        have := beats_eq_nil.mp (List.append_eq_nil_iff.mp hbeats.symm).1
        exact absurd this (hne f (by rw [hall]; simp))
    rw [hrest, List.append_nil] at hall
    exact ⟨hsrc, by rw [hs.out, hall]⟩
  | frame open_ done rest f tail hall htail hlt hs =>
    have hopen : open_ = false := by
      cases open_ with
      | false => rfl
      | true => simp at hn
    have hlen := congrArg List.length hs.src
    rw [List.length_append, beats_length] at hlen
    have := List.length_pos_iff.mpr (hs.pending hopen)
    omega

/-- Only a slave that takes the answer makes the stub ready again. -/
theorem At.not_ready {n : ℕ} (h : At frames s n) (hreq : s.r.reqReady = false)
    (hev : ev.2 = false) : (s.cycle ev).r.reqReady = false := by
  have hstate : s.r.state = .reply := by
    cases h with
    | ready done rest hall hs =>
      rw [hs.reqReady] at hreq
      cases hreq
    | frame open_ done rest f tail hall htail hlt hs =>
      have hopen : open_ = true := by
        by_contra hc
        have hpend := hs.pending (by simpa using hc)
        rw [hs.reqReady] at hreq
        simp at hreq
        exact hpend hreq
      rw [hs.state, hopen]
      rfl
  simp [Sys.cycle, Reg.next, hstate, hreq, hev]

theorem At.init (frames : List (List (BitVec W))) :
    ∃ n, At frames (Sys.init (frames.flatMap beats)) n :=
  ⟨_, .ready [] frames rfl ⟨rfl, rfl, rfl, rfl, rfl⟩⟩

theorem At.run (hne : ∀ f ∈ frames, f ≠ []) (evs : ℕ → Bool × Bool) (t : ℕ) :
    ∃ n, At frames (Sys.run frames evs t) n := by
  induction t with
  | zero => exact At.init frames
  | succ t ih =>
    obtain ⟨n, h⟩ := ih
    obtain ⟨n', h', -⟩ := h.cycle hne (evs t)
    rw [Sys.run, runAt_succ]
    exact ⟨n', h'⟩

theorem moves_again (hne : ∀ f ∈ frames, f ≠ []) {evs : ℕ → Bool × Bool} (hfair : Fair evs)
    (t : ℕ) : ∃ t' ≥ t, Moves (Sys.run frames evs t') (evs t') := by
  obtain ⟨t1, ht1, hvld⟩ := hfair.1 t
  cases hreq : (Sys.run frames evs t1).r.reqReady with
  | true => exact ⟨t1, ht1, by rw [Moves, if_pos hreq]; exact hvld⟩
  | false =>
    by_contra hnone
    -- until the slave takes the answer, the stub is not ready
    have hwait : ∀ k, (Sys.run frames evs (t1 + k)).r.reqReady = false := by
      intro k
      induction k with
      | zero => exact hreq
      | succ k ih =>
        have hev : (evs (t1 + k)).2 = false := by
          by_contra hc
          refine hnone ⟨t1 + k, by omega, ?_⟩
          rw [Moves, if_neg (by simp [ih])]
          simpa using hc
        obtain ⟨n, hat⟩ := At.run hne evs (t1 + k)
        have hnext := hat.not_ready ih hev
        rw [← Nat.add_assoc, Sys.run, runAt_succ]
        exact hnext
    obtain ⟨t2, ht2, hrdy⟩ := hfair.2 t1
    obtain ⟨k, rfl⟩ := Nat.exists_eq_add_of_le ht2
    refine hnone ⟨t1 + k, by omega, ?_⟩
    rw [Moves, if_neg (by simp [hwait k])]
    exact hrdy

theorem replyTo_fields (data : BitVec W) :
    getVersion (replyTo data) = proVersn ∧ getCommand (replyTo data) = cmdError ∧
    getLen (replyTo data) =
      if getVersion data ≠ proVersn then 1 else if getCommand data ≠ cmdQuery then 2 else 4 := by
  unfold replyTo
  split_ifs <;> decide

/-- Every frame is answered by one error word, which its first word determines, in the order of
the frames, for any gaps and stalls; what is answered at any time are the frames that have been
started, and no word of the next one has been taken before. All is answered in the end when both
neighbours act again and again. -/
theorem stub_answers (frames : List (List (BitVec W))) (hne : ∀ f ∈ frames, f ≠ [])
    (evs : ℕ → Bool × Bool) :
    (∀ f ∈ frames, (answer f).2 = true ∧ getVersion (answer f).1 = proVersn ∧
      getCommand (answer f).1 = cmdError ∧
      getLen (answer f).1 =
        if getVersion (f.headD 0) ≠ proVersn then 1
        else if getCommand (f.headD 0) ≠ cmdQuery then 2 else 4) ∧
    (∀ t, Aligned frames (Sys.run frames evs t)) ∧
    (Fair evs → ∃ T, ∀ t ≥ T, (Sys.run frames evs t).src = [] ∧
      (Sys.run frames evs t).out = frames.map answer) := by
  refine ⟨fun f _ => ⟨rfl, replyTo_fields _⟩, ?_, ?_⟩
  · intro t
    obtain ⟨n, hat⟩ := At.run hne evs t
    exact hat.aligned
  · intro hfair
    obtain ⟨n, hinit⟩ := At.init frames
    have hstep : ∀ n (s : Sys W) (ev : Bool × Bool), At frames s n → True →
        ∃ n', At frames (Sys.cycle s ev) n' ∧ n' ≤ n ∧ (Moves s ev → 0 < n → n' < n) :=
      fun n s ev h _ => h.cycle hne ev
    obtain ⟨T, hT⟩ := runAt_eventually hstep (fun _ => trivial) (moves_again hne hfair) hinit
    exact ⟨T, fun t ht => (hT t ht).finished hne⟩

/-- A frame with a bad version and a query. -/
theorem stub_answers_two_frames :
    ∃ T, ∀ t ≥ T, (Sys.run [[0xffffffff#32, 1], [0]] (fun _ => (true, true)) t).out =
      [(0x20000001, true), (0x20000004, true)] := by
  obtain ⟨-, -, hend⟩ := stub_answers [[0xffffffff#32, 1], [0]] (by decide) fun _ => (true, true)
  obtain ⟨T, hT⟩ := hend ⟨fun t => ⟨t, le_rfl, rfl⟩, fun t => ⟨t, le_rfl, rfl⟩⟩
  exact ⟨T, fun t ht => (hT t ht).2.trans (by decide)⟩

end XvcSupport.AxisJtagDebugBridgeStub
