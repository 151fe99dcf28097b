import XvcSupport.Stack

namespace XvcSupport.JtagDriver

open AxisToJtag
open Protocol (frame)

/-- Every attempt ends the call, or it is lost and one more is lost than before. -/
theorem xferRel_attempts {σ : Type*} {xfer : σ → Except Err Header × σ} {xid : Xid}
    {P : ℕ → σ → Prop} {Q : Header → σ → Prop}
    (hstep : ∀ n s, P n s → (∃ s', xfer s = (.error .timeoutErr, s') ∧ P (n + 1) s') ∨
      ∃ hdr s', xfer s = (.ok hdr, s') ∧ judge xid hdr = .accept ∧ Q hdr s')
    (attempts : ℕ) {n : ℕ} {s : σ} (h : P n s) :
    (∃ hdr s', xferRel xfer xid attempts s = (.ok hdr, s') ∧ Q hdr s') ∨
      ∃ s', xferRel xfer xid attempts s = (.error .timeoutErr, s') ∧ P (n + attempts) s' := by
  induction attempts generalizing n s with
  | zero => exact Or.inr ⟨s, rfl, h⟩
  | succ attempts ih =>
    rcases hstep n s h with ⟨s', hlost, hP⟩ | ⟨hdr, s', hok, haccept, hQ⟩
    · rw [show n + (attempts + 1) = n + 1 + attempts by omega]
      simp only [xferRel, hlost]
      exact ih hP
    · exact Or.inl ⟨hdr, s', by simp only [xferRel, hok, haccept], hQ⟩

/-- What becomes of an attempt. -/
inductive Delivery
  | requestLost
  | replyLost
  | delivered

/-- The request frames that have reached the firmware since reset, and the number of attempts. -/
structure Lossy (W : ℕ) where
  frames : List (List (BitVec W))
  attempts : ℕ

/-- A network with the firmware at its end; the `k`-th attempt meets the `k`-th fate. -/
def lossy (g : Generics) (tap : Tap) (fate : ℕ → Delivery) : Exchange (Lossy g.W) := fun net msg =>
  let reply := serve g tap (afterAll tap (Fw.init g.W) net.frames) (frame g msg)
  match fate net.attempts with
  | .requestLost => (.error .timeoutErr, { net with attempts := net.attempts + 1 })
  | .replyLost =>
    (.error .timeoutErr, { frames := net.frames ++ [frame g msg], attempts := net.attempts + 1 })
  | .delivered =>
    (.ok (octetsOf g.axisWidth reply.1),
      { frames := net.frames ++ [frame g msg], attempts := net.attempts + 1 })

/-- Of the attempts made so far, this many were lost in a row. -/
def Loses (n made : ℕ) (fate : ℕ → Delivery) : Prop :=
  ∃ k, k + n ≤ made ∧ ∀ j < n, fate (k + j) ≠ .delivered

theorem Loses.mono {n made made' : ℕ} {fate : ℕ → Delivery} (h : Loses n made fate)
    (hle : made ≤ made') : Loses n made' fate := by
  obtain ⟨k, hk, hlost⟩ := h
  exact ⟨k, hk.trans hle, hlost⟩

variable {g : Generics} {tap : Tap} {fate : ℕ → Delivery}

/-- A request that the firmware answers in one way, however often it comes: in a state with `I`,
where `J` holds from the first time on. -/
structure Idempotent (tap : Tap) (msg : List Byte) (reply : List (BitVec g.W))
    (I J : Fw g.W → Prop) : Prop where
  serves : ∀ fw, I fw → TidyAt fw (frame g msg) ∧ (serve g tap fw (frame g msg)).1 = reply ∧
    J (serve g tap fw (frame g msg)).2
  again : ∀ fw, J fw → I fw

/-- What holds of the frames that have reached the firmware. -/
def Reached (tap : Tap) (P : Fw g.W → Prop) (frames : List (List (BitVec g.W))) : Prop :=
  AllTidy tap (Fw.init g.W) frames ∧ P (afterAll tap (Fw.init g.W) frames)

theorem Idempotent.reached {msg : List Byte} {reply : List (BitVec g.W)} {I J : Fw g.W → Prop}
    (h : Idempotent tap msg reply I J) {frames : List (List (BitVec g.W))}
    (hI : Reached tap I frames) : Reached tap J (frames ++ [frame g msg]) := by
  obtain ⟨htidy, -, hJ⟩ := h.serves _ hI.2
  refine ⟨allTidy_append.mpr ⟨hI.1, htidy, trivial⟩, ?_⟩
  rw [afterAll_snoc]
  exact hJ

/-- Such a request gets through, unless all attempts are lost. -/
theorem Idempotent.xferRel {msg : List Byte} {reply : List (BitVec g.W)} {I J : Fw g.W → Prop}
    (h : Idempotent tap msg reply I J) (fate : ℕ → Delivery) (attempts : ℕ) {net : Lossy g.W}
    (hI : Reached tap I net.frames) {hsize : ℕ}
    (hlen : hsize ≤ (octetsOf g.axisWidth reply).length) {xid : Xid}
    (hjudge : judge xid (getHdr (octetsOf g.axisWidth reply)) = .accept) (size p : ℕ)
    (tdo : Mem) :
    (∃ net', JtagDriver.xferRel (xfer (lossy g tap fate) msg hsize size p) xid attempts
        (tdo, net) = (.ok (getHdr (octetsOf g.axisWidth reply)),
          memcpy tdo p (memOf ((octetsOf g.axisWidth reply).drop hsize)) 0
            (min size ((octetsOf g.axisWidth reply).length - hsize)), net') ∧
      Reached tap J net'.frames) ∨
    ∃ net', JtagDriver.xferRel (xfer (lossy g tap fate) msg hsize size p) xid attempts
        (tdo, net) = (.error .timeoutErr, tdo, net') ∧
      Reached tap I net'.frames ∧ Loses attempts net'.attempts fate := by
  set octets := octetsOf g.axisWidth reply with hoctets
  -- the attempts that were lost so far
  let P : ℕ → Mem × Lossy g.W → Prop := fun n s => s.1 = tdo ∧ Reached tap I s.2.frames ∧
    s.2.attempts = net.attempts + n ∧ ∀ j < n, fate (net.attempts + j) ≠ .delivered
  let Q : Header → Mem × Lossy g.W → Prop := fun hdr s => hdr = getHdr octets ∧
    s.1 = memcpy tdo p (memOf (octets.drop hsize)) 0 (min size (octets.length - hsize)) ∧
    Reached tap J s.2.frames
  have hstep : ∀ n s, P n s →
      (∃ s', xfer (lossy g tap fate) msg hsize size p s = (.error .timeoutErr, s') ∧
        P (n + 1) s') ∨
      ∃ hdr s', xfer (lossy g tap fate) msg hsize size p s = (.ok hdr, s') ∧
        judge xid hdr = .accept ∧ Q hdr s' := by
    rintro n ⟨buf, net'⟩ ⟨rfl, hI, hcount, hlost⟩
    have hserved := h.reached hI
    have hnext : fate net'.attempts ≠ .delivered →
        net'.attempts + 1 = net.attempts + (n + 1) ∧
          ∀ j < n + 1, fate (net.attempts + j) ≠ .delivered := by
      intro hne
      refine ⟨by rw [hcount]; omega, ?_⟩
      intro j hj
      by_cases hjn : j < n
      · exact hlost j hjn
      · rwa [show net.attempts + j = net'.attempts by rw [hcount]; omega]
    cases hf : fate net'.attempts with
    | requestLost =>
      exact Or.inl ⟨(buf, ⟨net'.frames, net'.attempts + 1⟩), by simp only [xfer, lossy, hf],
        rfl, hI, hnext (by rw [hf]; simp)⟩
    | replyLost =>
      have hserved' : Reached tap I (net'.frames ++ [frame g msg]) :=
        ⟨hserved.1, h.again _ hserved.2⟩
      exact Or.inl ⟨(buf, ⟨net'.frames ++ [frame g msg], net'.attempts + 1⟩),
        by simp only [xfer, lossy, hf], rfl, hserved', hnext (by rw [hf]; simp)⟩
    | delivered =>
      have hreply := (h.serves _ hI.2).2.1
      have hshort : ¬ octets.length < hsize := not_lt.mpr hlen
      refine Or.inr ⟨getHdr octets, (memcpy buf p (memOf (octets.drop hsize)) 0
        (min size (octets.length - hsize)), ⟨net'.frames ++ [frame g msg], net'.attempts + 1⟩), ?_,
        hjudge, rfl, rfl, hserved⟩
      simp only [xfer, lossy, hf, hreply, storeReply, ← hoctets, hshort, if_false]
  have hstart : P 0 (tdo, net) := ⟨rfl, hI, rfl, by simp⟩
  rcases xferRel_attempts hstep attempts hstart with
    ⟨hdr, ⟨buf, net'⟩, hrel, rfl, htdo, hJ⟩ | ⟨⟨buf, net'⟩, hrel, htdo, hI', hcount, hlost⟩
  · obtain rfl : buf = _ := htdo
    exact Or.inl ⟨net', hrel, hJ⟩
  · obtain rfl : buf = tdo := htdo
    rw [Nat.zero_add] at hlost hcount
    exact Or.inr ⟨net', hrel, hI', net.attempts, hcount.ge, hlost⟩

theorem le_xferRel {σ : Type*} {xfer : σ → Except Err Header × σ} (count : σ → ℕ)
    (h : ∀ s, count s ≤ count (xfer s).2) (xid : Xid) (attempts : ℕ) (s : σ) :
    count s ≤ count (JtagDriver.xferRel xfer xid attempts s).2 := by
  induction attempts generalizing s with
  | zero => exact le_rfl
  | succ attempts ih =>
    have hone := h s
    rw [JtagDriver.xferRel]
    rcases hx : xfer s with ⟨e | hdr, s'⟩
    · rw [hx] at hone
      cases e with
      | timeoutErr => exact hone.trans (ih s')
      | sysErr prefx => exact hone
      | protoErr msg => exact hone
      | runtimeErr msg => exact hone
    · rw [hx] at hone
      dsimp only
      cases judge xid hdr with
      | accept => exact hone
      | ignore => exact hone.trans (ih s')
      | fail e => exact hone

theorem attempts_le_lossy (net : Lossy g.W) (msg : List Byte) :
    net.attempts ≤ (lossy g tap fate net msg).2.attempts := by
  unfold lossy
  cases fate net.attempts <;> exact Nat.le_succ _

theorem attempts_le_xfer (msg : List Byte) (hsize size p : ℕ) (s : Mem × Lossy g.W) :
    s.2.attempts ≤ (xfer (lossy g tap fate) msg hsize size p s).2.2.attempts := by
  have hle : s.2.attempts ≤ (lossy g tap fate s.2 msg).2.attempts := attempts_le_lossy s.2 msg
  unfold xfer
  rcases hx : lossy g tap fate s.2 msg with ⟨e | reply, net⟩
  · rw [hx] at hle
    exact hle
  · rw [hx] at hle
    exact hle

variable {d : Drv} {bits : ℕ}

variable (tap) in
theorem idempotent_shift {a : ℕ} (ha : g.W = 2 ^ a) (hd : 0 < g.memDepth)
    (hw : d.wordSize = g.axisWidth) (h1 : 1 ≤ bits) (h20 : bits ≤ 2 ^ 20)
    (hmem : g.memDepth = 0 ∨ bits ≤ g.W * g.memDepth) (tms tdi : Mem) (hist : List Edge) :
    let vec := vectorBits tms tdi bits
    let after := held g (newXid d.xid) (shiftWords g tap hist vec) (hist ++ edgesOf vec)
    Idempotent tap (d.shiftMsg bits tms tdi) (shiftReply g tap (newXid d.xid) hist vec)
      (fun fw => fw = after ∨ fw.hist = hist ∧ (fw.memValid = true → fw.xid = d.xid))
      (fun fw => fw = after) := by
  intro vec after
  refine ⟨?_, fun fw h => Or.inl h⟩
  rintro fw (rfl | ⟨rfl, hxid⟩)
  · obtain ⟨htidy, hserve⟩ := serve_again tap ha hd hw h1 h20 hmem tms tdi
      (shiftWords g tap hist vec) (hist ++ edgesOf vec)
    refine ⟨htidy, ?_, congrArg Prod.snd hserve⟩
    rw [hserve, shiftReply, vectorBits_length]
  · obtain ⟨htidy, hserve⟩ := serve_shift tap ha fw hw hxid h1 h20 hmem tms tdi
    exact ⟨htidy, congrArg Prod.fst hserve, congrArg Prod.snd hserve⟩

variable (tap) in
theorem idempotent_query (h4 : 4 ≤ d.wordSize) (hist : List Edge) :
    ∃ w : BitVec g.W, w.setWidth 32 = mkQuery ∧
      Idempotent tap d.queryMsg [setQueryData g w] (fun fw => fw.hist = hist)
        (fun fw => fw.hist = hist ∧ fw.memValid = false) := by
  obtain ⟨w, ws, hframe, hw, -⟩ := serve_query tap (Fw.init g.W) h4
  refine ⟨w, hw, ?_, fun fw h => h.1⟩
  rintro fw rfl
  obtain ⟨w', ws', hframe', -, htidy, hserve⟩ := serve_query tap fw h4
  obtain ⟨rfl, rfl⟩ := List.cons.inj (hframe'.symm.trans hframe)
  rw [hframe', hserve]
  exact ⟨htidy, rfl, rfl, rfl⟩

end XvcSupport.JtagDriver

namespace XvcSupport.XvcConn

open JtagDriver AxisToJtag

section Lossy

variable {g : Generics} {a : ℕ} {tap : Tap} {fate : ℕ → Delivery} {kind : DrvKind}
  {cvtPerNs : Header → BitVec 32}

/-- The driver, with what has reached the firmware. -/
def Port.reached {W : ℕ} (s : Port (Lossy W)) : Port (List (List (BitVec W))) where
  link := { drv := s.link.drv, tdo := s.link.tdo, net := s.link.net.frames }
  periodNs := s.periodNs

variable {s : Port (Lossy g.W)} {hist : List Edge}

variable (kind cvtPerNs) in
theorem lossy_query (hd : 0 < g.memDepth) (h : Askable tap s.reached)
    (hretry : s.link.drv.retry = 5)
    (hhist : (afterAll tap (Fw.init g.W) s.link.net.frames).hist = hist) :
    Outcome (Port.step (overExchange (lossy g tap fate)) kind cvtPerNs s .query)
      (g.memDepth * g.axisWidth, [])
      (fun s' => Serves tap cvtPerNs s'.reached hist ∧ s'.link.drv.retry = 5)
      (fun s' => Reached tap (fun fw => fw.hist = hist) s'.link.net.frames ∧
        Loses 6 s'.link.net.attempts fate) := by
  have h4 : 4 ≤ s.link.drv.wordSize := h.four_le
  have hle : s.link.drv.wordSize ≤ g.axisWidth := h.wordSize_le
  obtain ⟨w, hw, hidem⟩ := idempotent_query (g := g) tap h4 hist
  obtain ⟨hlen, hhdr, herr⟩ := queryReply_octets hw
  have hjudge : judge (getXid (getHdr s.link.drv.queryMsg))
      (getHdr (octetsOf g.axisWidth [setQueryData g w])) = .accept := by
    rw [getHdr_queryMsg _ h4, judge, herr]
    simp [show getXid mkQuery = xidAny from by decide]
  rcases hidem.xferRel fate 6 ⟨h.tidy, hhist⟩ (hle.trans hlen.ge) hjudge 0 0 s.link.tdo with
    ⟨net', hrel, htidy, hafter, hvalid⟩ | ⟨net', hrel, hreached, hlost⟩
  · generalize memcpy s.link.tdo 0 _ 0 _ = tdo' at hrel
    obtain ⟨d', hadopt, hsize, hdepth, hbuf, hretry'⟩ := adopt_queryReply g s.link.drv.afterQueryMsg
    rw [if_neg hd.ne'] at hretry'
    have hvec : d'.tgtVecLen = g.memDepth * g.axisWidth := by
      have hm : g.memDepth * g.axisWidth ≤ 2 ^ 16 * 16 :=
        Nat.mul_le_mul g.memDepth_lt.le g.le_sixteen
      rw [Drv.tgtVecLen, hdepth, hsize]
      exact u32_of_lt (by omega)
    refine Or.inl ⟨⟨{ drv := d', tdo := tdo', net := net' }, cvtPerNs (queryReply g)⟩, ?_,
      ⟨⟨hsize, (le_max_right _ _).trans hbuf.ge, fun hv => ?_, htidy⟩, rfl, hafter⟩, hretry'⟩
    · simp only [Port.step, queryVia, overExchange, hretry, hrel, hhdr, hadopt, hvec]
    · exact absurd (hvalid.symm.trans hv) (by simp)
  · let l : Link (Lossy g.W) := { drv := s.link.drv.afterQueryMsg, tdo := s.link.tdo, net := net' }
    refine Or.inr ⟨.timeoutErr, ⟨l, s.periodNs⟩, ?_, hreached, hlost⟩
    simp only [Port.step, queryVia, overExchange, hretry, hrel, l]

variable (fate) in
theorem lossy_sendVectors (ha : g.W = 2 ^ a) (hd : 0 < g.memDepth)
    (h : Serves tap cvtPerNs s.reached hist) (hretry : s.link.drv.retry = 5) {bits : ℕ}
    (h1 : 1 ≤ bits) (h20 : bits ≤ 2 ^ 20) (hmem : g.memDepth = 0 ∨ bits ≤ g.W * g.memDepth)
    (tms tdi : Mem) :
    let vec := vectorBits tms tdi bits
    (∃ l, sendVectorsVia (overExchange (lossy g tap fate)) bits tms tdi 0 s.link = (none, l) ∧
      slice l.tdo 0 (bytesCeil bits) = octetsOfBits (response tap hist vec) ∧
      Serves tap cvtPerNs (Port.reached ⟨l, s.periodNs⟩) (hist ++ edgesOf vec) ∧
      l.drv.retry = 5) ∨
    ∃ e l, sendVectorsVia (overExchange (lossy g tap fate)) bits tms tdi 0 s.link = (some e, l) ∧
      (∃ part, part <+: vec ∧
        Reached tap (fun fw => fw.hist = hist ++ edgesOf part) l.net.frames) ∧
      Loses 6 l.net.attempts fate := by
  intro vec
  have hws : s.link.drv.wordSize = g.axisWidth := h.tied.wordSize
  have hidem := idempotent_shift tap ha hd hws h1 h20 hmem tms tdi hist
  obtain ⟨hle, hhdr, hstore⟩ := shiftReply_octets tap (newXid s.link.drv.xid) hist
    (vectorBits_length tms tdi bits) hws
  have hmsg : getHdr (s.link.drv.shiftMsg bits tms tdi) = mkShift (newXid s.link.drv.xid) bits :=
    getHdr_shiftMsg _ tms tdi (hws ▸ g.four_le) (hws ▸ g.le_sixteen) (by omega)
  have hjudge : judge (getXid (getHdr (s.link.drv.shiftMsg bits tms tdi)))
      (getHdr (octetsOf g.axisWidth (shiftReply g tap (newXid s.link.drv.xid) hist vec))) =
        .accept := by
    rw [hmsg, hhdr, judge, getErr_mkShift _ h1 h20]
    simp
  have hu : u32 (bytesCeil bits) = bytesCeil bits := by
    apply u32_of_lt
    unfold bytesCeil
    omega
  rcases hidem.xferRel fate 6 ⟨h.tied.tidy, Or.inr ⟨h.hist, h.tied.xid⟩⟩ hle hjudge
      (bytesCeil bits) 0 s.link.tdo with
    ⟨net', hrel, htidy, hafter⟩ | ⟨net', hrel, ⟨htidy, hafter⟩, hlost⟩
  · rw [hstore] at hrel
    have hlen : (octetsOfBits (response tap hist vec)).length = bytesCeil bits := by simp [vec]
    have hend := slice_memcpy_end s.link.tdo 0 (octetsOfBits (response tap hist vec))
    rw [hlen, Nat.zero_add] at hend
    generalize memcpy s.link.tdo 0 (memOf (octetsOfBits (response tap hist vec))) 0
      (bytesCeil bits) = tdo' at hrel hend
    refine Or.inl ⟨{ drv := s.link.drv.afterShift bits tms tdi, tdo := tdo', net := net' }, ?_,
      hend, ⟨⟨hws, h.tied.reserved, fun _ => ?_, htidy⟩, h.period, ?_⟩, hretry⟩
    · simp only [sendVectorsVia, overExchange, hretry, hu, hrel]
    · exact congrArg Fw.xid hafter
    · exact congrArg Fw.hist hafter
  · let l : Link (Lossy g.W) :=
      { drv := s.link.drv.afterShift bits tms tdi, tdo := s.link.tdo, net := net' }
    refine Or.inr ⟨.timeoutErr, l, ?_, ?_, hlost⟩
    · simp only [sendVectorsVia, overExchange, hretry, hu, hrel, l]
    -- the shift was executed, or it was not
    · rcases hafter with hdone | ⟨hnot, -⟩
      · exact ⟨vec, List.prefix_refl _, htidy, congrArg Fw.hist hdone⟩
      · exact ⟨[], List.nil_prefix, htidy, by simpa [edgesOf] using hnot⟩

def lossyBackend (ha : g.W = 2 ^ a) (hd : 0 < g.memDepth) (tap : Tap) (kind : DrvKind)
    (cvtPerNs : Header → BitVec 32) (fate : ℕ → Delivery) : Backend tap (Port (Lossy g.W)) where
  step := Port.step (overExchange (lossy g tap fate)) kind cvtPerNs
  Fresh s hist := Askable tap s.reached ∧ s.link.drv.retry = 5 ∧
    (afterAll tap (Fw.init g.W) s.link.net.frames).hist = hist
  Serves s hist := Serves tap cvtPerNs s.reached hist ∧ s.link.drv.retry = 5
  Stopped s hist := Reached tap (fun fw => fw.hist = hist) s.link.net.frames ∧
    Loses 6 s.link.net.attempts fate
  tgtVecLen := g.memDepth * g.axisWidth
  maxVectorSize := kind.getMaxVectorSize g.axisWidth
  periodNs := cvtPerNs (queryReply g)
  limit := 2 ^ 17
  limit_le := le_rfl
  again := by
    rintro s hist ⟨h, hretry⟩
    exact ⟨h.askable, hretry, h.hist⟩
  query := by
    rintro s hist ⟨hask, hretry, hhist⟩
    exact lossy_query kind cvtPerNs hd hask hretry hhist
  getMaxVectorSize := by
    rintro s hist ⟨h, -⟩
    rw [← h.tied.wordSize]
    rfl
  setPeriodNs := by
    rintro s hist ⟨h, -⟩ p
    rw [← h.period]
    rfl
  sendVectors := by
    rintro s hist ⟨h, hretry⟩ bits h1 hlimit hmem tms tdi vec
    have hmem' := le_memory hmem
    have htot : bytesTot s.link.drv.wordSize bits ≤ s.link.drv.bufSz :=
      bytesTot_le h.tied (fun h0 => absurd h0 hd.ne') le_rfl (by omega) hlimit hmem'
    rcases lossy_sendVectors fate ha hd h hretry h1 (by omega) hmem' (memOf tms) (memOf tdi) with
      ⟨l, hcall, hout, hserves, hretry'⟩ | ⟨e, l, hcall, ⟨part, hpart, hreached⟩, hlost⟩
    · exact Or.inl
        ⟨⟨l, s.periodNs⟩, by simp only [Port.step, if_neg (not_lt.mpr htot), hcall, hout, vec],
          hserves, hretry'⟩
    · exact Or.inr ⟨e, ⟨l, s.periodNs⟩,
        by simp only [Port.step, if_neg (not_lt.mpr htot), hcall], part, hpart, hreached, hlost⟩

variable (kind cvtPerNs) in
theorem attempts_le_step (s : Port (Lossy g.W)) (c : DrvCall) :
    s.link.net.attempts ≤
      (Port.step (overExchange (lossy g tap fate)) kind cvtPerNs s c).2.link.net.attempts := by
  have hle (msg : List Byte) (hsize size p : ℕ) (xid : Xid) (attempts : ℕ) :
      s.link.net.attempts ≤
        (JtagDriver.xferRel (xfer (lossy g tap fate) msg hsize size p) xid attempts
          (s.link.tdo, s.link.net)).2.2.attempts :=
    le_xferRel (fun x : Mem × Lossy g.W => x.2.attempts) (attempts_le_xfer msg hsize size p) xid
      attempts (s.link.tdo, s.link.net)
  cases c with
  | query =>
    have hquery := hle s.link.drv.queryMsg s.link.drv.wordSize 0 0
      (getXid (getHdr s.link.drv.queryMsg)) (s.link.drv.retry + 1)
    simp only [Port.step, queryVia, overExchange]
    generalize JtagDriver.xferRel _ _ _ _ = x at hquery ⊢
    obtain ⟨e | hdr, tdo, net⟩ := x
    · exact hquery
    · rcases hadopt : s.link.drv.afterQueryMsg.adopt hdr with ⟨_ | e, d⟩
      · simp only [hadopt]
        exact hquery
      · simp only [hadopt]
        exact hquery
  | getMaxVectorSize => exact le_rfl
  | setPeriodNs p => exact le_rfl
  | sendVectors bits tms tdi =>
    have hsend := hle (s.link.drv.shiftMsg bits (memOf tms) (memOf tdi)) s.link.drv.wordSize
      (u32 (bytesCeil bits)) 0 (getXid (getHdr (s.link.drv.shiftMsg bits (memOf tms) (memOf tdi))))
      (s.link.drv.retry + 1)
    rw [Port.step]
    split_ifs with hbuf
    · exact le_rfl
    · simp only [sendVectorsVia, overExchange]
      generalize JtagDriver.xferRel _ _ _ _ = x at hsend ⊢
      obtain ⟨e | hdr, tdo, net⟩ := x
      · exact hsend
      · exact hsend

theorem Reached.pins (ha : g.W = 2 ^ a) {frames : List (List (BitVec g.W))}
    (h : Reached tap (fun fw => fw.hist = hist) frames) {bits : List (Bool × Bool)}
    (hbits : rises hist = bits) {clkDiv2 : ℕ} (hD : 0 < clkDiv2) (bufMem : ℕ → BitVec g.W)
    (memOut : BitVec g.W) (evs : ℕ → Bool × Bool) :
    let dev := Dev.run clkDiv2 tap frames bufMem memOut evs
    (∀ t, rises (dev t).hist <+: bits) ∧
      (Fair evs → ∃ T, ∀ t ≥ T, rises (dev t).hist = bits) := by
  obtain ⟨htidy, rfl⟩ := h
  obtain ⟨hbegin, hend⟩ := pins_show ha htidy hD bufMem memOut evs
  rw [← hbits]
  refine ⟨fun t => (hbegin t).2, fun hfair => ?_⟩
  obtain ⟨T, hT⟩ := hend hfair
  exact ⟨T, fun t ht => (hT t ht).2⟩

/-- A network that delivers twice and then loses every reply. -/
def lastReplies (k : ℕ) : Delivery := if k < 2 then .delivered else .replyLost

/-- A network that loses a request, then a reply, and delivers every third attempt. -/
def everyThird (k : ℕ) : Delivery :=
  if k % 3 = 0 then .requestLost else if k % 3 = 1 then .replyLost else .delivered

theorem everyThird_delivers (made : ℕ) : ¬ Loses 6 made everyThird := by
  rintro ⟨k, -, hlost⟩
  apply hlost (2 - k % 3) (by omega)
  unfold everyThird
  rw [if_neg (by omega), if_neg (by omega)]

end Lossy

end XvcSupport.XvcConn
