import XvcSupport.StreamPolls
import XvcSupport.Stack

namespace XvcSupport.AxisToJtag

variable {g : Generics} {clkDiv2 : ℕ} {tap : Tap} {s : Dev g} {ev : Bool × Bool} {n : ℕ}
  {fw fw0 : Fw g.W} {fs fs' all : List (List (BitVec g.W))}

/-- No frame has more than two words for each word of its reply. -/
def AllBrisk (tap : Tap) : Fw g.W → List (List (BitVec g.W)) → Prop
  | _, [] => True
  | fw, f :: fs => f.length ≤ 2 * (serve g tap fw f).1.length ∧ AllBrisk tap (serve g tap fw f).2 fs

instance decidableAllBrisk (tap : Tap) (fw : Fw g.W) :
    (fs : List (List (BitVec g.W))) → Decidable (AllBrisk tap fw fs)
  | [] => inferInstanceAs (Decidable True)
  | f :: fs =>
    have := decidableAllBrisk tap (serve g tap fw f).2 fs
    inferInstanceAs (Decidable (_ ∧ AllBrisk tap (serve g tap fw f).2 fs))

theorem allBrisk_append :
    AllBrisk tap fw (fs ++ fs') ↔ AllBrisk tap fw fs ∧ AllBrisk tap (afterAll tap fw fs) fs' := by
  induction fs generalizing fw with
  | nil => simp [AllBrisk, afterAll]
  | cons f fs ih => simp [AllBrisk, ih, and_assoc, afterAll]

theorem AllBrisk.length_le (h : AllBrisk tap fw fs) :
    (fs.flatMap beats).length ≤ 2 * (answers tap fw fs).length := by
  induction fs generalizing fw with
  | nil => exact Nat.zero_le _
  | cons f fs ih =>
    have hrest := ih h.2
    have hfirst := h.1
    rw [List.flatMap_cons, List.length_append, beats_length, answers, List.length_append,
      beats_length]
    omega

theorem DevAt.idle_of_all_sent (hT : AllTidy tap fw0 all) (h : DevAt clkDiv2 tap fw0 all n s)
    (hsent : s.sent = answers tap fw0 all) (hack : s.r.ackInput = false) :
    AtIdle s (afterAll tap fw0 all) [] := by
  have hs : s.Sound (false, false) := h.sound hT
  cases h with
  | idle h hd =>
    obtain ⟨-, rfl, rfl⟩ := hd.all_sent hsent
    exact h
  | @sendRep _ _ _ _ pending _ h hd =>
    have hdue := (hd.all_sent hsent).1
    rcases h.flow with ⟨hack', -⟩ | ⟨hack', -⟩ | ⟨-, -, -, rfl⟩
    · rw [hack'] at hack
      cases hack
    · rw [hack'] at hack
      cases hack
    · simp at hdue
  | start h hc hd =>
    have hdue := (hd.all_sent hsent).1
    exact absurd (beats_eq_nil.mp hdue) (serve_ne_nil tap _ (by simp))
  | busy h hc hne hnone hsave hd =>
    exact absurd (hd.all_sent hsent).1 (h.shiftDue_ne_nil hne)
  | @replay _ fw _ data k rem h hd =>
    have hdue := (hd.all_sent hsent).1
    rw [beats_eq_nil, List.drop_eq_nil_iff, List.length_cons] at hdue
    rw [h.ackInput, Bool.not_eq_false', List.isEmpty_iff] at hack
    have := h.open_ hack
    omega
  | doomed h => exact absurd hs h.not_sound

/-- While it absorbs a request the entity takes every word that it is offered. -/
theorem DevAt.absorbs (h : DevAt clkDiv2 tap fw0 all n s) (hack : s.r.ackInput = true) :
    s.sAxisReqLoc = true ∧ (s.r.state = .sendRep ∨ s.r.state = .replay) := by
  have hloc : s.r.passTdi = false → s.sAxisReqLoc = true := by
    intro hp
    rw [Dev.sAxisReqLoc, hp]
    exact hack
  cases h with
  | idle h => rw [h.ackInput] at hack; cases hack
  | sendRep h => exact ⟨hloc h.passTdi, Or.inl h.state⟩
  | start h => rw [h.ackInput] at hack; cases hack
  | busy h => rw [h.ackInput] at hack; cases hack
  | replay h => exact ⟨hloc h.passTdi, Or.inr h.state⟩
  | doomed h => rw [h.ackInput] at hack; cases hack

theorem Dev.ackInput_cycle (h : (s.cycle clkDiv2 tap ev).r.ackInput = true) :
    (s.r.state = .idle ∧ (s.mAxisReq ev.1).tValid = true) ∨ s.r.ackInput = true ∧
      ((s.r.state = .sendRep ∨ s.r.state = .replay) →
        (s.reqXfer ev.1 && (s.mAxisReq ev.1).tLast) = false) := by
  have hnext : (s.cycle clkDiv2 tap ev).r = s.r.next (s.comb ev.1 ev.2) s.memOut := rfl
  rw [hnext] at h
  cases hs : s.r.state with
  | idle =>
    cases hv : (s.mAxisReq ev.1).tValid with
    | true => exact Or.inl ⟨rfl, rfl⟩
    | false =>
      simp only [Reg.next, hs, Reg.idle, Dev.comb, hv, Bool.false_eq_true, if_false] at h
      exact Or.inr ⟨h, by simp⟩
  | sendRep =>
    simp only [Reg.next, hs, Reg.sendRep, Dev.comb, Bool.and_eq_true, Bool.not_eq_true',
      Bool.or_eq_false_iff] at h
    exact Or.inr ⟨h.1, fun _ => h.2.2⟩
  | replay =>
    have hack : ((s.r.replay (s.comb ev.1 ev.2) s.memOut).ackInput) =
        (s.r.ackInput && !(s.comb ev.1 ev.2).lastReq) := by
      rw [Reg.replay_eq]
    simp only [Reg.next, hs] at h
    rw [hack, Bool.and_eq_true, Bool.not_eq_true'] at h
    exact Or.inr ⟨h.1, fun _ => h.2⟩
  | waitStarted =>
    simp only [Reg.next, hs, Reg.waitStarted, sendHeaderNow] at h
    refine Or.inr ⟨?_, by simp⟩
    split_ifs at h <;> exact h
  | waitHdrReady =>
    simp only [Reg.next, hs, Reg.waitHdrReady] at h
    refine Or.inr ⟨?_, by simp⟩
    split_ifs at h <;> exact h
  | waitStopped =>
    simp only [Reg.next, hs, Reg.waitStopped] at h
    refine Or.inr ⟨?_, by simp⟩
    split_ifs at h <;> exact h

theorem DevAt.idle_length (h : DevAt clkDiv2 tap fw0 all n s) (hstate : s.r.state = .idle)
    (hbrisk : AllBrisk tap fw0 all) :
    s.sAxisReqLoc = false ∧ s.src.length + 2 * s.out.length ≤ 2 * (answers tap fw0 all).length := by
  cases h with
  | @idle _ fw fs h hd =>
    refine ⟨by rw [Dev.sAxisReqLoc, h.passTdi, h.ackInput]; rfl, ?_⟩
    obtain ⟨served, rfl, hsent, rfl⟩ := hd.served
    have hle := (allBrisk_append.mp hbrisk).2.length_le
    have hlen := congrArg List.length hsent
    rw [List.append_nil, Dev.sent, List.length_append] at hlen
    rw [h.src, answers_append, List.length_append]
    omega
  | sendRep h => rw [h.state] at hstate; cases hstate
  | start h => rw [h.state] at hstate; cases hstate
  | busy h =>
    rcases h.state with ⟨hst, -⟩ | ⟨hst, -⟩ | ⟨hst, -⟩ <;> rw [hst] at hstate <;> cases hstate
  | replay h => rw [h.state] at hstate; cases hstate
  | doomed h =>
    rcases h.state with ⟨hst, -⟩ | ⟨hst, -⟩ | ⟨hst, -⟩ <;> rw [hst] at hstate <;> cases hstate

end XvcSupport.AxisToJtag

namespace XvcSupport.Tmem2BSCANWrapper

open AxisToJtag Axis2TmemFifo

variable {cs : BitVec 2} {tap : Tap} {s : Traffic} {d : Dev jtag} {b : Tmem} {a : Lines} {n : ℕ}

theorem Traffic.replies_length (s : Traffic) (tap : Tap) :
    (s.replies tap).length = (answers tap (Fw.init jtag.W) s.sent).length := by
  have hbeats : (answers tap (Fw.init jtag.W) s.sent).length =
      ((replyFrames tap (Fw.init jtag.W) s.sent).flatMap beats).length :=
    congrArg List.length answers_eq_flatMap
  have hwords := congrArg List.length
    (Incoming.map_fst_flatMap (replyFrames tap (Fw.init jtag.W) s.sent))
  rw [List.length_map] at hwords
  exact (hbeats.trans hwords).symm

/-- The entity is offered a word, and the bus has more to read than the entity to absorb: two cycles
for each word, or one if it has just read. -/
structure Supplied (tap : Tap) (s : Traffic) : Prop where
  valid : s.board.fifo.fifoOutValid = true
  bound : s.pending.length + 2 * s.reads.length ≤
    2 * (s.replies tap).length + s.board.fifo.fifoInpRDENs.toNat

/-- The invariant while requests are absorbed. -/
def KeepsUp (tap : Tap) (s : Traffic) : Prop :=
  s.board.jtag.r.ackInput = true → Supplied tap s

namespace Joint

theorem pending_length (h : Joint tap s d) : s.pending.length = d.src.length := by
  rw [h.src, beats_length]

/-- What the bus has read is what the entity has sent, but for the words in the FIFO. -/
theorem reads_length (h : Joint tap s d) (htidy : AllTidy tap (Fw.init jtag.W) s.sent) :
    s.reads.length + s.board.fifo.fifoInp.queue.length = d.out.length := by
  have hsum : (s.reads ++ (s.board.fifo.fifoInp.queue ++
      ((answers tap (Fw.init jtag.W) s.sent).drop d.out.length).map Prod.fst)).length =
        (s.replies tap).length := congrArg List.length h.incoming.reads_unread
  have hle := h.out_le htidy
  rw [List.length_append, List.length_append, List.length_map, List.length_drop,
    s.replies_length tap] at hsum
  omega

theorem queue_of_read (h : Joint tap s d) {i : Inp}
    (hread : s.board.fifo.tmemRDEN (streamGenerics cs) i = true) :
    s.board.fifo.fifoInp.queue ≠ [] := by
  cases h.incoming with
  | filling done rest left hf =>
    have hno : s.board.fifo.tmemRDEN (streamGenerics cs) i = false := hf.tmemRDEN i
    rw [hno] at hread
    cases hread
  | draining done more f got hd => exact hd.queue

theorem ackInput_eq (h : Joint tap s d) : d.r.ackInput = s.board.jtag.r.ackInput :=
  congrArg (fun e : Entity jtag => e.r.ackInput) h.entity

theorem reads_cycle (h : Joint tap s d) (hl : Legal cs tap s b a) :
    (s.cycle cs tap b a).reads.length =
        s.reads.length + (s.cycle cs tap b a).board.fifo.fifoInpRDENs.toNat ∧
      (s.cycle cs tap b a).board.fifo.fifoInpRDENs =
        s.board.fifo.tmemRDEN (streamGenerics cs) (s.board.fifoIn tap false b a) := by
  have hreg : (s.cycle cs tap b a).board.fifo.fifoInpRDENs =
      s.board.fifo.tmemRDEN (streamGenerics cs) (s.board.fifoIn tap false b a) :=
    congrArg Axis2TmemFifo.Reg.fifoInpRDENs (h.running.next_eq hl.noReset)
  refine ⟨?_, hreg⟩
  rw [hreg]
  simp only [Traffic.cycle]
  split_ifs with hread <;> simp [hread]

/-- A word of the outgoing FIFO stays, or the next one follows at once. -/
theorem valid_cycle (h : Joint tap s d) (hl : Legal cs tap s b a)
    (hvalid : s.board.fifo.fifoOutValid = true)
    (hmore : s.board.jtag.sAxisReq = true → s.board.fifo.fifoOut.empty = false) :
    (s.cycle cs tap b a).board.fifo.fifoOutValid = true := by
  obtain ⟨out, hout⟩ := h.outgoing
  cases hout with
  | writing hw =>
    have hno : s.board.fifo.fifoOutValid = false := hw.valid
    rw [hno] at hvalid
    cases hvalid
  | sending hs =>
    cases hready : s.board.jtag.sAxisReq with
    | false => exact (hs.stall hl.noReset hvalid hready).2.1
    | true =>
      have hfree : (!s.board.fifo.fifoOutValid || s.board.jtag.sAxisReq) = true := by
        rw [hready, Bool.or_true]
      have hnext : (s.cycle cs tap b a).board.fifo.fifoOutValid = !s.board.fifo.fifoOut.empty :=
        (hs.advance hl.noReset hfree).2.1
      rw [hnext, hmore hready, Bool.not_false]

theorem sent_cycle (h : Joint tap s d) (hvalid : s.board.fifo.fifoOutValid = true) :
    (s.cycle cs tap b a).sent = s.sent ∧
      feed cs tap s b a d = d.cycle CLK_DIV2_G tap s.board.event := by
  have howner := h.owner_of_valid hvalid
  simp [Traffic.cycle, feed, howner]

theorem pending_cycle (h : Joint tap s d) (hl : Legal cs tap s b a)
    (hvalid : s.board.fifo.fifoOutValid = true) :
    (s.cycle cs tap b a).pending.length =
      s.pending.length - (d.reqXfer s.board.event.1).toNat := by
  have hsrc := congrArg List.length (h.src_cycle hl)
  rw [(h.sent_cycle hvalid).2, beats_length] at hsrc
  rw [← hsrc, h.pending_length]
  simp only [Dev.cycle]
  split_ifs with hx <;> simp [hx]

end Joint

theorem Supplied.header (h : Joint tap s d) (hl : Legal cs tap s b a)
    (htidy : AllTidy tap (Fw.init jtag.W) s.sent) (hbrisk : AllBrisk tap (Fw.init jtag.W) s.sent)
    (hidle : d.r.state = .idle) (hvalid : s.board.fifo.fifoOutValid = true) :
    Supplied tap (s.cycle cs tap b a) := by
  obtain ⟨n, hat⟩ := h.stage
  obtain ⟨hready, hlen⟩ := hat.idle_length hidle hbrisk
  refine ⟨h.valid_cycle hl hvalid fun hx => ?_, ?_⟩
  · rw [← h.sAxisReq_eq, hready] at hx
    cases hx
  have hno : d.reqXfer s.board.event.1 = false := by rw [Dev.reqXfer, hready, Bool.and_false]
  have hpending := h.pending_cycle hl hvalid
  have hsrc := h.pending_length
  have hreplies := s.replies_length tap
  have hout := h.reads_length htidy
  obtain ⟨hreads, hreg⟩ := h.reads_cycle hl
  have hqueue : (s.cycle cs tap b a).board.fifo.fifoInpRDENs.toNat ≤
      s.board.fifo.fifoInp.queue.length := by
    rw [hreg]
    cases hread : s.board.fifo.tmemRDEN (streamGenerics cs) (s.board.fifoIn tap false b a) with
    | false => exact Nat.zero_le _
    | true => exact List.length_pos_iff.mpr (h.queue_of_read hread)
  rw [hno, Bool.toNat_false] at hpending
  rw [Traffic.replies, (h.sent_cycle hvalid).1, ← Traffic.replies]
  omega

theorem Supplied.word (hs : Supplied tap s) (h : Joint tap s d) (hl : Legal cs tap s b a)
    (hack : d.r.ackInput = true) (hmore : (d.r.state = .sendRep ∨ d.r.state = .replay) →
      (d.reqXfer s.board.event.1 && (d.mAxisReq s.board.event.1).tLast) = false) :
    Supplied tap (s.cycle cs tap b a) := by
  obtain ⟨n, hat⟩ := h.stage
  obtain ⟨hready, hstate⟩ := hat.absorbs hack
  have hword := h.same.2 hs.valid
  have hx : d.reqXfer s.board.event.1 = true := by
    rw [Dev.reqXfer, ← hword, hready, Bool.and_true]
    exact hs.valid
  have hempty : s.board.fifo.fifoOut.empty = false := by
    have hlast := hmore hstate
    rw [hx, Bool.true_and, ← hword] at hlast
    exact hlast
  refine ⟨h.valid_cycle hl hs.valid fun _ => hempty, ?_⟩
  have hpending := h.pending_cycle hl hs.valid
  have hpos : 0 < s.pending.length := by
    rw [h.pending_eq hs.valid]
    exact Nat.succ_pos _
  have hbound := hs.bound
  obtain ⟨hreads, hreg⟩ := h.reads_cycle hl
  rw [hx, Bool.toNat_true] at hpending
  rw [Traffic.replies, (h.sent_cycle hs.valid).1, ← Traffic.replies]
  cases hread : (s.cycle cs tap b a).board.fifo.fifoInpRDENs with
  | true =>
    -- two reads are apart
    have hapart : s.board.fifo.fifoInpRDENs = false := hl.apart (hreg.symm.trans hread)
    rw [hread, Bool.toNat_true] at hreads
    rw [hapart, Bool.toNat_false] at hbound
    rw [Bool.toNat_true]
    omega
  | false =>
    have hone := Bool.toNat_le s.board.fifo.fifoInpRDENs
    rw [hread, Bool.toNat_false] at hreads
    rw [Bool.toNat_false]
    omega

theorem KeepsUp.cycle (hk : KeepsUp tap s) (h : Joint tap s d) (hl : Legal cs tap s b a)
    (htidy : AllTidy tap (Fw.init jtag.W) s.sent) (hbrisk : AllBrisk tap (Fw.init jtag.W) s.sent) :
    KeepsUp tap (s.cycle cs tap b a) := by
  intro hack
  have hack' : (d.cycle CLK_DIV2_G tap s.board.event).r.ackInput = true :=
    (congrArg (fun e : Entity jtag => e.r.ackInput) h.entity_cycle).trans hack
  rcases Dev.ackInput_cycle hack' with ⟨hidle, hoffered⟩ | ⟨hold, hmore⟩
  · exact .header h hl htidy hbrisk hidle (h.same.1.trans hoffered)
  · exact (hk (h.ackInput_eq.symm.trans hold)).word h hl hold hmore

variable (cs tap) in
theorem sent_grows (s : Traffic) (evs : List (Tmem × Lines)) :
    s.sent <+: (s.run cs tap evs).sent := by
  refine runFrom_induction (P := fun s' : Traffic => s.sent <+: s'.sent) ?_ (List.prefix_refl _) evs
  intro s' ev hle
  refine hle.trans ?_
  simp only [Traffic.cycle]
  split_ifs
  · exact List.prefix_append _ _
  · exact List.prefix_refl _

theorem KeepsUp.run (hk : KeepsUp tap s) (hserved : Served tap s) {evs : List (Tmem × Lines)}
    (hlegal : s.LegalRun cs tap evs)
    (hbrisk : AllBrisk tap (Fw.init jtag.W) (s.run cs tap evs).sent) :
    KeepsUp tap (s.run cs tap evs) := by
  induction evs generalizing s with
  | nil => exact hk
  | cons ev evs ih =>
    obtain ⟨htidy, d, h⟩ := hserved
    have hnow : AllBrisk tap (Fw.init jtag.W) s.sent := by
      obtain ⟨rest, hrest⟩ := sent_grows cs tap s (ev :: evs)
      rw [← hrest] at hbrisk
      exact (allBrisk_append.mp hbrisk).1
    exact ih (hk.cycle h hlegal.1.1 htidy hnow) ⟨hlegal.1.2, _, h.cycle hlegal.1.1 hlegal.1.2⟩
      hlegal.2 hbrisk

/-- The board has absorbed every request one cycle after the last reply has been read. -/
theorem KeepsUp.turns (hk : KeepsUp tap s) (hserved : Served tap s) (hall : s.reads = s.replies tap)
    (hidle : s.board.fifo.fifoInpRDENs = false) :
    s.board.fifo.fifoOutOwnerAXIS = false ∧ s.board.jtag.r.state = .idle := by
  obtain ⟨htidy, d, h⟩ := hserved
  obtain ⟨n, hat⟩ := h.stage
  have hack : d.r.ackInput = false := by
    by_contra hcon
    have hold : s.board.jtag.r.ackInput = true := h.ackInput_eq.symm.trans (by simpa using hcon)
    have hs := hk hold
    have hbound := hs.bound
    rw [hall, hidle, Bool.toNat_false, h.pending_eq hs.valid, List.length_cons] at hbound
    omega
  have hrest := hat.idle_of_all_sent htidy (h.sent_of_all_read htidy hall) hack
  obtain ⟨out, hout⟩ := h.outgoing
  constructor
  · have hempty : s.pending = [] := by
      have hsrc := h.pending_length
      rw [hrest.src] at hsrc
      exact List.eq_nil_of_length_eq_zero hsrc
    by_contra hcon
    have howner : s.board.fifo.fifoOutOwnerAXIS = true := by simpa using hcon
    exact (hout.streams (g := streamGenerics 0)).owner.mp howner hempty
  · have hr : d.r = s.board.jtag.r := congrArg Entity.r h.entity
    rw [← hr]
    exact hrest.state

theorem PowerUp.keepsUp (cs : BitVec 2) (tap : Tap) (p : PowerUp) :
    KeepsUp tap (p.traffic cs tap) := by
  obtain ⟨memOut, htraffic⟩ := p.traffic_eq cs tap
  have hno : (Traffic.init cs p.bufMem memOut).board.jtag.r.ackInput = false := rfl
  rw [htraffic]
  exact fun h => absurd (hno.symm.trans h) Bool.false_ne_true

/-- The board is ready for the next request when the last reply is read and one cycle has passed
since: the outgoing FIFO belongs to the bus, and the entity waits for a header.  This holds in every
run after a reset in which no frame has more than two words for each word of its reply, as those of
the driver. -/
theorem stream_board_turns (cs : BitVec 2) (tap : Tap) (p : PowerUp)
    (evs : List (Tmem × Lines)) (hlegal : (p.traffic cs tap).LegalRun cs tap evs)
    (hbrisk : AllBrisk tap (Fw.init jtag.W) ((p.traffic cs tap).run cs tap evs).sent) :
    let s := (p.traffic cs tap).run cs tap evs
    s.reads = s.replies tap → s.board.fifo.fifoInpRDENs = false →
      s.board.fifo.fifoOutOwnerAXIS = false ∧ s.board.jtag.r.state = .idle := by
  have hserved := p.served cs tap
  exact ((p.keepsUp cs tap).run hserved hlegal hbrisk).turns (hserved.run hlegal)

theorem stream_board_turns_query :
    let s := (sixCycles.traffic 0 fun _ _ tdi => tdi).run 0 (fun _ _ tdi => tdi)
      (oneQuery ++ [pollStatus])
    s.board.fifo.fifoOutOwnerAXIS = false ∧ s.board.jtag.r.state = .idle :=
  stream_board_turns 0 (fun _ _ tdi => tdi) sixCycles (oneQuery ++ [pollStatus])
    (by unfold Traffic.LegalRun; decide +kernel) (by decide +kernel) (by decide +kernel)
    (by decide +kernel)

end XvcSupport.Tmem2BSCANWrapper

namespace XvcSupport.XvcConn

open AxisToJtag JtagDriver
open Protocol (frame)

variable {g : Generics} {tap : Tap} {s : Port (List (List (BitVec g.W)))} {hist : List Edge}
  {a bits : ℕ} {kind : DrvKind} {cvtPerNs : Header → BitVec 32} {room limit : ℕ}

/-- The frames that the driver has sent are brisk, if the first ones are. -/
def Brisk (tap : Tap) (s0 s : Port (List (List (BitVec g.W)))) : Prop :=
  AllBrisk tap (Fw.init g.W) s0.link.net → AllBrisk tap (Fw.init g.W) s.link.net

theorem Brisk.send {s0 s' : Port (List (List (BitVec g.W)))} {f : List (BitVec g.W)}
    (h : Brisk tap s0 s) (hnet : s'.link.net = s.link.net ++ [f])
    (hf : f.length ≤ 2 * (serve g tap (afterAll tap (Fw.init g.W) s.link.net) f).1.length) :
    Brisk tap s0 s' := by
  intro h0
  rw [hnet]
  exact allBrisk_append.mpr ⟨h h0, hf, trivial⟩

theorem query_brisk (h : Askable tap s) :
    let fw := afterAll tap (Fw.init g.W) s.link.net
    (frame g s.link.drv.queryMsg).length ≤
      2 * (serve g tap fw (frame g s.link.drv.queryMsg)).1.length := by
  intro fw
  obtain ⟨w, ws, hframe, -, -, hserve⟩ := serve_query tap fw h.four_le
  have hax := g.four_le
  have hlen : (frame g s.link.drv.queryMsg).length =
      (s.link.drv.wordSize + g.axisWidth - 1) / g.axisWidth := by
    rw [frame, wordsOf_length, Drv.queryMsg, slice_length]
  have hone : (s.link.drv.wordSize + g.axisWidth - 1) / g.axisWidth ≤ 1 := by
    have hle := h.wordSize_le
    exact ceil_le (by omega) (by omega)
  rw [hlen, hframe, hserve, List.length_singleton]
  omega

theorem shift_brisk (ha : g.W = 2 ^ a) (h : Serves tap cvtPerNs s hist) (h1 : 1 ≤ bits)
    (h20 : bits ≤ 2 ^ 20) (hmem : g.memDepth = 0 ∨ bits ≤ g.W * g.memDepth) (tms tdi : Mem) :
    let fw := afterAll tap (Fw.init g.W) s.link.net
    (frame g (s.link.drv.shiftMsg bits tms tdi)).length ≤
      2 * (serve g tap fw (frame g (s.link.drv.shiftMsg bits tms tdi))).1.length := by
  intro fw
  have hax := g.four_le
  have hw := h.tied.wordSize
  obtain ⟨-, hserve⟩ := serve_shift tap ha fw hw h.tied.xid h1 h20 hmem tms tdi
  have hlen := (wordsOf_shiftMsg s.link.drv tms tdi (hw ▸ hax) (hw ▸ g.le_sixteen)
    (show bits < 2 ^ 32 by omega)).2
  rw [hw] at hlen
  have hbits := (wordCount_le g.W_pos).mp (le_refl (wordCount g.W bits))
  have hwords : (bytesCeil bits + g.axisWidth - 1) / g.axisWidth ≤ wordCount g.W bits := by
    have hW := g.W_mul (wordCount g.W bits)
    rw [Nat.mul_comm] at hW
    apply ceil_le (by omega)
    unfold bytesCeil
    omega
  rw [hserve, shiftReply, List.length_cons, shiftWords, List.length_map, List.length_range,
    vectorBits_length, frame, hlen]
  omega

def briskBackend (ha : g.W = 2 ^ a) (tap : Tap) (hfit : Fitting g kind room limit)
    (s0 : Port (List (List (BitVec g.W)))) : Backend tap (Port (List (List (BitVec g.W)))) :=
  (firmwareBackend kind cvtPerNs ha tap hfit).keeping (Brisk tap s0)
    (by
      rintro s hist ⟨hask, -⟩ hkept
      obtain ⟨s', hstep, -, -, hnet⟩ := step_query kind cvtPerNs hask
        (DrvKind.takes_mono (Nat.le_add_right _ _) hfit.transport)
      have hnext := hkept.send hnet (query_brisk hask)
      exact (congrArg (fun x => Brisk tap s0 x.2) hstep).mpr hnext)
    (by
      rintro s hist ⟨h, hroom⟩ bits h1 hlimit hmem tms tdi hkept
      have h17 := hfit.limit_le
      have hlimit' : bits ≤ 8 * limit := hlimit
      obtain ⟨s', hstep, -, -, hnet⟩ :=
        step_sendVectors kind cvtPerNs ha h hfit hroom h1 hlimit (le_memory hmem) tms tdi
      have hnext := hkept.send hnet
        (shift_brisk ha h h1 (by omega) (le_memory hmem) (memOf tms) (memOf tdi))
      exact (congrArg (fun x => Brisk tap s0 x.2) hstep).mpr hnext)

/-- What a connection makes its driver send are brisk frames, whatever the client asks for. -/
theorem connection_brisk (ha : g.W = 2 ^ a) (tap : Tap) (kind : DrvKind)
    (cvtPerNs : Header → BitVec 32) (s0 : Port (List (List (BitVec g.W)))) (hask : Askable tap s0)
    (hbrisk : AllBrisk tap (Fw.init g.W) s0.link.net) (cfg : Config)
    (hfit : Fitting g kind s0.link.drv.bufSz (longest g kind cfg)) (io : Io) (hio : io.Sends)
    (msgs : List Message) (hfits : ∀ msg ∈ msgs, msg.Fits cfg.maxVecLen) (rest : List Byte) :
    let drv := stackStep g tap kind cvtPerNs
    let r := run cfg (behaviour drv s0) io (msgs.flatMap Message.octets ++ rest) msgs.length
    AllBrisk tap (Fw.init g.W) (afterCalls drv s0 r.2.calls).link.net := by
  intro drv r
  obtain ⟨-, -, -, -, hkept⟩ :=
    run_serves (B := briskBackend ha tap hfit s0) (behaviour_runs s0)
      ⟨⟨hask, le_rfl, rfl⟩, id⟩ le_rfl hio msgs hfits rest fun _ => id
  exact hkept hbrisk

end XvcSupport.XvcConn

namespace XvcSupport.Tmem2BSCANWrapper

open AxisToJtag XvcConn
open Axis2TmemFifo (Tmem)

/-- The board with the requests of a connection: the driver may write the next one as soon as it has
read the reply to the last. -/
theorem connection_turns (cs : BitVec 2) (tap : Tap) (p : PowerUp) (evs : List (Tmem × Lines))
    (hlegal : (p.traffic cs tap).LegalRun cs tap evs) (kind : DrvKind)
    (cvtPerNs : Header → BitVec 32) (s0 : Port (List (List (BitVec jtag.W))))
    (hask : Askable tap s0) (hnew : s0.link.net = []) (cfg : Config)
    (hfit : Fitting jtag kind s0.link.drv.bufSz (longest jtag kind cfg)) (io : Io)
    (hio : io.Sends) (msgs : List Message) (hfits : ∀ msg ∈ msgs, msg.Fits cfg.maxVecLen)
    (rest : List Byte) :
    let drv := stackStep jtag tap kind cvtPerNs
    let r := run cfg (behaviour drv s0) io (msgs.flatMap Message.octets ++ rest) msgs.length
    let s := (p.traffic cs tap).run cs tap evs
    s.sent <+: (afterCalls drv s0 r.2.calls).link.net →
      s.reads = s.replies tap → s.board.fifo.fifoInpRDENs = false →
        s.board.fifo.fifoOutOwnerAXIS = false ∧ s.board.jtag.r.state = .idle := by
  rintro drv r s ⟨later, hlater⟩
  have hserved := p.served cs tap
  have hall : AllBrisk tap (Fw.init jtag.W) (afterCalls drv s0 r.2.calls).link.net :=
    connection_brisk (a := 5) rfl tap kind cvtPerNs s0 hask (by rw [hnew]; trivial) cfg hfit
      io hio msgs hfits rest
  have hsent : AllBrisk tap (Fw.init jtag.W) s.sent := by
    rw [← hlater] at hall
    exact (allBrisk_append.mp hall).1
  exact ((p.keepsUp cs tap).run hserved hlegal hsent).turns (hserved.run hlegal)

end XvcSupport.Tmem2BSCANWrapper
