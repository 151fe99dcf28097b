import XvcSupport.Stages

namespace XvcSupport.AxisToJtag

open AxisToJtagPkg AxisToJtagCore JtagSerDesCore

variable {g : Generics} {clkDiv2 : ℕ} {tap : Tap} {s : Dev g} {ev : Bool × Bool}

def Decision.isLocal : Decision → Bool
  | .execute | .replay => false
  | _ => true

def localReply (dec : Decision) (data : BitVec g.W) : BitVec g.W :=
  match dec with
  | .badVersion => setErr errBadVersion (setVersion proVersn data)
  | .query => setQueryData g data
  | .badCommand => setErr errBadCommand data
  | .truncated => setErr errTruncated data
  | .execute | .replay => data

theorem serve_local {fw : Fw g.W} {data : BitVec g.W} {payload : List (BitVec g.W)}
    (h : (idle g fw.xid fw.memValid data payload.isEmpty).isLocal = true) :
    serve g tap fw (data :: payload) =
      ([localReply (idle g fw.xid fw.memValid data payload.isEmpty) data],
        { fw with memValid := fw.memValid &&
            decide (idle g fw.xid fw.memValid data payload.isEmpty ≠ .query) }) := by
  rw [serve]
  revert h
  cases idle g fw.xid fw.memValid data payload.isEmpty <;>
    simp [localReply, Decision.isLocal]

theorem Reg.idle_local {r : Reg g.W} {m : Axis g.W} (hv : m.tValid = true)
    (h : (AxisToJtag.idle g r.xid r.memValid m.tData m.tLast).isLocal = true) :
    r.idle m = { r with
      replyData := ⟨true, true,
        localReply (AxisToJtag.idle g r.xid r.memValid m.tData m.tLast) m.tData⟩
      ackInput := true
      tLastSeen := m.tLast
      ridx := 0
      state := .sendRep
      memValid := r.memValid &&
        decide (AxisToJtag.idle g r.xid r.memValid m.tData m.tLast ≠ .query) } := by
  revert h
  unfold AxisToJtag.idle Reg.idle
  rw [if_pos hv]
  split_ifs <;> simp_all [localReply, Decision.isLocal, sendHeaderNow]

theorem Reg.idle_execute {r : Reg g.W} {m : Axis g.W} (hv : m.tValid = true)
    (h : AxisToJtag.idle g r.xid r.memValid m.tData m.tLast = .execute) :
    r.idle m = { r with
      replyData := ⟨false, m.tLast, m.tData⟩
      ackInput := false
      tLastSeen := m.tLast
      ridx := 0
      widx := 0
      xid := getXid m.tData
      state := .waitStarted
      passTdi := true
      memValid := false } ∧ m.tLast = false ∧ checkLen g m.tData = true := by
  revert h
  unfold AxisToJtag.idle Reg.idle
  rw [if_pos hv]
  split_ifs <;> simp_all

theorem Reg.idle_replay {r : Reg g.W} {m : Axis g.W} (hv : m.tValid = true)
    (h : AxisToJtag.idle g r.xid r.memValid m.tData m.tLast = .replay) :
    r.idle m = { r with
      replyData := ⟨true, false, m.tData⟩
      ackInput := true
      tLastSeen := m.tLast
      ridx := 1
      state := .replay } ∧ r.memValid = true := by
  revert h
  unfold AxisToJtag.idle Reg.idle
  rw [if_pos hv]
  split_ifs <;> simp_all [xidIsNew]

theorem Dev.mAxisReq_beats {w : BitVec g.W} {ws : List (BitVec g.W)}
    {rest : List (BitVec g.W × Bool)} (h : s.src = beats (w :: ws) ++ rest) (vld : Bool) :
    s.mAxisReq vld = ⟨s.offer || vld, ws.isEmpty, w⟩ := by
  simp [Dev.mAxisReq, h]

theorem Dev.mTdi_of_not (h : s.r.passTdi = false) (vld : Bool) :
    (s.core.sReady && (s.mTdi vld).tValid) = false := by
  simp [Dev.mTdi, h]

theorem Dev.writeMem_of_not (h : s.r.passTdo = false) (rdy : Bool) : s.writeMem rdy = s.bufMem := by
  simp [Dev.writeMem, h]

theorem Stores.congr {s' : Dev g} {fw : Fw g.W} (h : Stores s fw) (hx : s'.r.xid = s.r.xid)
    (hv : s'.r.memValid = s.r.memValid) (hw : s'.r.widx = s.r.widx) (hm : s'.bufMem = s.bufMem) :
    Stores s' fw where
  xid := hx.trans h.xid
  memValid := hv.trans h.memValid
  widx hf := hw.trans (h.widx hf)
  pos := h.pos
  le := h.le
  mem hf i hi := by rw [hm]; exact h.mem hf i hi

section Idle

variable {fw : Fw g.W} {fs : List (List (BitVec g.W))} {data : BitVec g.W}
  {payload : List (BitVec g.W)}

theorem AtIdle.wait (h : AtIdle s fw fs) (hv : (s.mAxisReq ev.1).tValid = false) :
    AtIdle (s.cycle clkDiv2 tap ev) fw fs := by
  have hr : (s.cycle clkDiv2 tap ev).r = { s.r with tLastSeen := false } := by
    simp [Dev.cycle, Reg.next, h.state, Reg.idle, Dev.comb, hv]
  constructor
  · rw [hr]; exact h.state
  · rw [hr]; exact h.reply
  · rw [hr]; exact h.ackInput
  · rw [hr]; exact h.passTdo
  · rw [hr]; exact h.passTdi
  · rw [hr]; exact h.ridx
  · exact (h.quiet.next (Dev.mTdi_of_not h.passTdi _)).1
  · exact h.stores.congr (by rw [hr]) (by rw [hr]) (by rw [hr]) (Dev.writeMem_of_not h.passTdo _)
  · rw [← h.src]
    simp [Dev.cycle, Dev.reqXfer, hv]

variable (clkDiv2 tap) in
theorem AtIdle.look (h : AtIdle s fw ((data :: payload) :: fs))
    (hv : (s.mAxisReq ev.1).tValid = true) :
    s.mAxisReq ev.1 = ⟨true, payload.isEmpty, data⟩ ∧
      (s.cycle clkDiv2 tap ev).r = s.r.idle ⟨true, payload.isEmpty, data⟩ ∧
      (s.cycle clkDiv2 tap ev).src = beats (data :: payload) ++ fs.flatMap beats ∧
      (s.cycle clkDiv2 tap ev).offer = true := by
  have hsrc : s.src = beats (data :: payload) ++ fs.flatMap beats := by
    rw [h.src, List.flatMap_cons]
  have hm := s.mAxisReq_beats hsrc ev.1
  rw [hm] at hv
  have hoff : (s.offer || ev.1) = true := hv
  rw [hoff] at hm
  refine ⟨hm, ?_, ?_, ?_⟩
  · simp [Dev.cycle, Reg.next, h.state, Dev.comb, hm]
  · simp [Dev.cycle, Dev.reqXfer, Dev.sAxisReqLoc, h.passTdi, h.ackInput, hsrc]
  · simp [Dev.cycle, Dev.reqXfer, Dev.sAxisReqLoc, h.passTdi, h.ackInput, hm]

theorem AtIdle.answer (h : AtIdle s fw ((data :: payload) :: fs))
    (hv : (s.mAxisReq ev.1).tValid = true)
    (hdec : (idle g fw.xid fw.memValid data payload.isEmpty).isLocal = true) :
    AtSendRep (s.cycle clkDiv2 tap ev) (serve g tap fw (data :: payload)).2 fs
      (localReply (idle g fw.xid fw.memValid data payload.isEmpty) data) true
      (data :: payload) := by
  obtain ⟨hm, hr, hsrc, hoff⟩ := h.look clkDiv2 tap hv
  rw [← h.stores.xid, ← h.stores.memValid] at hdec
  rw [Reg.idle_local (r := s.r) (m := ⟨true, payload.isEmpty, data⟩) rfl hdec] at hr
  rw [h.stores.xid, h.stores.memValid] at hdec hr
  rw [serve_local hdec]
  have hmv : (fw.memValid && decide (idle g fw.xid fw.memValid data payload.isEmpty ≠ .query)) =
      true → fw.memValid = true := by
    intro hf
    simp only [Bool.and_eq_true] at hf
    exact hf.1
  constructor
  · rw [hr]
  · rw [hr]
  · rw [hr]; exact h.passTdo
  · rw [hr]; exact h.passTdi
  · rw [hr]
  · exact (h.quiet.next (Dev.mTdi_of_not h.passTdi _)).1
  · constructor
    · rw [hr]
    · rw [hr]
    · intro hf; rw [hr]; exact h.stores.widx (hmv hf)
    · intro hf; exact h.stores.pos (hmv hf)
    · intro hf; exact h.stores.le (hmv hf)
    · intro hf i hi
      have hmem : (s.cycle clkDiv2 tap ev).bufMem = s.bufMem := Dev.writeMem_of_not h.passTdo _
      rw [hmem]
      exact h.stores.mem (hmv hf) i hi
  · exact hsrc
  · rw [hr]
    cases payload with
    | nil => exact Or.inr (Or.inl ⟨rfl, rfl, rfl, hoff⟩)
    | cons w ws => exact Or.inl ⟨rfl, rfl, by simp⟩

theorem AtIdle.execute (h : AtIdle s fw ((data :: payload) :: fs))
    (hv : (s.mAxisReq ev.1).tValid = true)
    (hdec : idle g fw.xid fw.memValid data payload.isEmpty = .execute) :
    AtStart (s.cycle clkDiv2 tap ev) fw fs data payload := by
  obtain ⟨hm, hr, hsrc, hoff⟩ := h.look clkDiv2 tap hv
  obtain ⟨hidle, hlast, -⟩ := Reg.idle_execute (r := s.r) (m := ⟨true, payload.isEmpty, data⟩) rfl
    (by rw [h.stores.xid, h.stores.memValid]; exact hdec)
  rw [hidle] at hr
  constructor
  · exact ⟨hdec, by rw [hr]; exact hlast, by rw [hr], by rw [hr], by rw [hr], by rw [hr],
      by rw [hr]⟩
  · rw [hr]
  · rw [hr]
  · rw [hr]; exact h.passTdo
  · rw [hr]
  · rw [hr]
  · exact (h.quiet.next (Dev.mTdi_of_not h.passTdi _)).1
  · exact hsrc

theorem AtIdle.replay (h : AtIdle s fw ((data :: payload) :: fs))
    (hv : (s.mAxisReq ev.1).tValid = true)
    (hdec : idle g fw.xid fw.memValid data payload.isEmpty = .replay) :
    AtReplay (s.cycle clkDiv2 tap ev) fw fs data 0 (data :: payload) := by
  obtain ⟨hm, hr, hsrc, hoff⟩ := h.look clkDiv2 tap hv
  obtain ⟨hidle, hmv⟩ := Reg.idle_replay (r := s.r) (m := ⟨true, payload.isEmpty, data⟩) rfl
    (by rw [h.stores.xid, h.stores.memValid]; exact hdec)
  rw [hidle] at hr
  rw [h.stores.memValid] at hmv
  have hpos := h.stores.pos hmv
  have hmem : (s.cycle clkDiv2 tap ev).bufMem = s.bufMem := Dev.writeMem_of_not h.passTdo _
  constructor
  · rw [hr]
  · rw [hr]
    simp
  · rw [hr]
    simp
  · rw [hr]
    exact (decide_eq_false (by omega)).symm
  · rw [hr]; exact h.passTdo
  · rw [hr]; exact h.passTdi
  · rw [hr, if_pos hpos]
  · intro _
    rw [← h.stores.mem hmv 0 hpos]
    simp [Dev.cycle, Dev.comb, h.state, h.ridx]
  · rw [hr]
    simp
  · simp
  · exact (h.quiet.next (Dev.mTdi_of_not h.passTdi _)).1
  · exact h.stores.congr (by rw [hr]) (by rw [hr]) (by rw [hr]) hmem
  · exact hmv
  · exact hsrc

end Idle

def remNext {W : ℕ} (xfer : Bool) (rem : List (BitVec W)) : List (BitVec W) :=
  if xfer then rem.tail else rem

theorem remNext_length {W : ℕ} (xfer : Bool) (rem : List (BitVec W)) :
    (remNext xfer rem).length = rem.length - xfer.toNat := by
  cases xfer <;> simp [remNext]

theorem Dev.src_next {rem : List (BitVec g.W)} {rest : List (BitVec g.W × Bool)}
    (hsrc : s.src = beats rem ++ rest) (hx : s.reqXfer ev.1 = true → rem ≠ []) :
    (s.cycle clkDiv2 tap ev).src = beats (remNext (s.reqXfer ev.1) rem) ++ rest := by
  simp only [Dev.cycle, remNext, hsrc]
  cases hxv : s.reqXfer ev.1 with
  | false => simp
  | true =>
    cases rem with
    | nil => exact absurd rfl (hx hxv)
    | cons w ws => simp

variable (ev) in
/-- While the protocol state machine absorbs a request, the last word of the request is
recognised. -/
theorem Dev.absorb {rem : List (BitVec g.W)} {rest : List (BitVec g.W × Bool)}
    (hsrc : s.src = beats rem ++ rest) (hp : s.r.passTdi = false)
    (ha : s.r.ackInput = true → rem ≠ []) :
    (s.reqXfer ev.1 = true → rem ≠ []) ∧
      ((s.reqXfer ev.1 && (s.mAxisReq ev.1).tLast) =
        (!rem.isEmpty && (remNext (s.reqXfer ev.1) rem).isEmpty)) := by
  have hx : s.reqXfer ev.1 = ((s.mAxisReq ev.1).tValid && s.r.ackInput) := by
    simp [Dev.reqXfer, Dev.sAxisReqLoc, hp]
  have hne : s.reqXfer ev.1 = true → rem ≠ [] := by
    intro h
    rw [hx, Bool.and_eq_true] at h
    exact ha h.2
  refine ⟨hne, ?_⟩
  cases hxv : s.reqXfer ev.1 with
  | false => cases rem <;> simp [remNext]
  | true =>
    cases rem with
    | nil => exact absurd rfl (hne hxv)
    | cons w ws =>
      simp [remNext, s.mAxisReq_beats hsrc ev.1]

section SendRep

variable {fw : Fw g.W} {fs : List (List (BitVec g.W))} {w : BitVec g.W} {pending : Bool}
  {rem : List (BitVec g.W)}

theorem AtSendRep.rem_ne (h : AtSendRep s fw fs w pending rem) (ha : s.r.ackInput = true) :
    rem ≠ [] := by
  rcases h.flow with ⟨-, -, hne⟩ | ⟨-, -, hlen, -⟩ | ⟨hack, -⟩
  · exact hne
  · rintro rfl
    simp at hlen
  · rw [hack] at ha
    exact absurd ha (by simp)

variable (clkDiv2 tap ev) in
theorem AtSendRep.next (h : AtSendRep s fw fs w pending rem) :
    (remNext (s.reqXfer ev.1) rem = [] ∧ (pending && !s.locConsumed ev.2) = false →
      AtIdle (s.cycle clkDiv2 tap ev) fw fs) ∧
    (¬ (remNext (s.reqXfer ev.1) rem = [] ∧ (pending && !s.locConsumed ev.2) = false) →
      AtSendRep (s.cycle clkDiv2 tap ev) fw fs w (pending && !s.locConsumed ev.2)
        (remNext (s.reqXfer ev.1) rem)) := by
  set rem' := remNext (s.reqXfer ev.1) rem with hrem'
  set pending' := pending && !s.locConsumed ev.2 with hpend'
  obtain ⟨hne, hlast⟩ := Dev.absorb ev h.src h.passTdi h.rem_ne
  rw [← hrem'] at hlast
  have hsrc : (s.cycle clkDiv2 tap ev).src = beats rem' ++ fs.flatMap beats :=
    Dev.src_next h.src hne
  -- after the cycle the request is known to be complete exactly when it has been absorbed
  have hseen : (s.r.tLastSeen || (!rem.isEmpty && rem'.isEmpty)) = rem'.isEmpty ∧
      (s.r.ackInput && !rem'.isEmpty) = !rem'.isEmpty := by
    rcases h.flow with ⟨hack, hs, hr⟩ | ⟨hack, hs, hlen, hoff⟩ | ⟨hack, hs, hr, -⟩
    · have : rem.isEmpty = false := by simpa using hr
      simp [hack, hs, this]
    · obtain ⟨w0, rfl⟩ := List.length_eq_one_iff.mp hlen
      have hx : s.reqXfer ev.1 = true := by
        simp [Dev.reqXfer, Dev.sAxisReqLoc, h.passTdi, hack, s.mAxisReq_beats h.src, hoff]
      simp [hs, hrem', hx, remNext]
    · have : rem' = [] := by rw [hrem', hr]; simp [remNext]
      simp [hs, this]
  have hr : (s.cycle clkDiv2 tap ev).r = { s.r with
      tLastSeen := rem'.isEmpty
      ackInput := !rem'.isEmpty
      replyData := ⟨pending', true, w⟩
      state := if rem'.isEmpty && !pending' then .idle else .sendRep } := by
    have hseen' := hseen.1
    have hack' := hseen.2
    simp only [Dev.cycle, Reg.next, h.state, Reg.sendRep, Dev.comb, hlast, hseen', hack', h.reply,
      hpend']
  have hq : Quiet (s.cycle clkDiv2 tap ev) fw.hist :=
    (h.quiet.next (Dev.mTdi_of_not h.passTdi ev.1)).1
  have hst : Stores (s.cycle clkDiv2 tap ev) fw :=
    h.stores.congr (by rw [hr]) (by rw [hr]) (by rw [hr]) (Dev.writeMem_of_not h.passTdo _)
  constructor
  · rintro ⟨hre, hpe⟩
    rw [hre] at hsrc
    refine ⟨?_, ?_, ?_, ?_, ?_, ?_, hq, hst, by simpa using hsrc⟩
    · simp [hr, hre, hpe]
    · simp [hr, hpe]
    · simp [hr, hre]
    · rw [hr]; exact h.passTdo
    · rw [hr]; exact h.passTdi
    · rw [hr]; exact h.ridx
  · intro hopen
    refine ⟨?_, ?_, ?_, ?_, ?_, hq, hst, hsrc, ?_⟩
    · rw [hr]
      have : (rem'.isEmpty && !pending') = false := by simpa using hopen
      simp [this]
    · rw [hr]
    · rw [hr]; exact h.passTdo
    · rw [hr]; exact h.passTdi
    · rw [hr]; exact h.ridx
    · rw [hr]
      by_cases hre : rem' = []
      · exact Or.inr (Or.inr ⟨by simp [hre], by simp [hre], hre, by simpa [hre] using hopen⟩)
      · exact Or.inl ⟨by simpa using hre, by simpa using hre, hre⟩

end SendRep

section Replay

variable {fw : Fw g.W} {fs : List (List (BitVec g.W))} {data : BitVec g.W} {k : ℕ}
  {rem : List (BitVec g.W)}

theorem lt_two_pow_bitSize (n : ℕ) : n < 2 ^ bitSize n := by
  have hle : 2 ≤ n → n ≤ 2 ^ log2 n := by
    intro h2
    rw [log2, if_neg (by omega)]
    exact Nat.le_pow_clog (by decide) n
  unfold bitSize
  split_ifs with h0 hp
  · omega
  · rw [Nat.pow_succ]
    have := hle (by omega)
    omega
  · -- a number that equals its power of two would pass the test on its bits
    refine lt_of_le_of_ne (hle (by omega)) (fun heq => hp ?_)
    have hand : n &&& (n - 1) = 0 := by
      rw [heq, Nat.and_two_pow_sub_one_eq_mod, Nat.mod_self]
    simp only [isPowerOf2, hand]
    simp
    omega

theorem incAddr_of_lt {n : ℕ} (h : n < g.memDepth) : incAddr g n = n + 1 := by
  have := lt_two_pow_bitSize g.memDepth
  rw [incAddr, Nat.pow_succ, Nat.mod_eq_of_lt (by omega)]

/-- The reply register and the read index after a word of the answer has gone. -/
def Reg.advance (r : Reg g.W) (memOut : BitVec g.W) : Axis g.W × ℕ :=
  if r.ridx = r.widx then (⟨r.replyData.tValid, true, memOut⟩, 0)
  else if r.replyData.tLast then (⟨false, r.replyData.tLast, memOut⟩, 0)
  else (⟨r.replyData.tValid, r.replyData.tLast, memOut⟩, incAddr g r.ridx)

theorem Reg.replay_eq (r : Reg g.W) (c : CombSig g.W) (memOut : BitVec g.W) :
    r.replay c memOut =
      let p := if c.locConsumed then r.advance memOut else (r.replyData, r.ridx)
      { r with
        ackInput := r.ackInput && !c.lastReq
        replyData := p.1
        ridx := p.2
        state := if (r.ackInput && !c.lastReq) || p.1.tValid then .replay else .idle } := by
  simp only [Reg.replay, Reg.advance]
  split_ifs <;> rfl

theorem AtReplay.reply_next (h : AtReplay s fw fs data k rem) (hk : k ≤ fw.mem.length) :
    ∃ tData, s.r.advance s.memOut =
      (⟨decide (k + 1 ≤ fw.mem.length), decide (fw.mem.length ≤ k + 1), tData⟩,
        if k + 1 < fw.mem.length then k + 1 + 1 else 0) ∧
      (k + 1 ≤ fw.mem.length → tData = (data :: fw.mem).getD (k + 1) 0) := by
  have hwidx := h.stores.widx h.memValid
  have hle := h.stores.le h.memValid
  have hpos := h.stores.pos h.memValid
  refine ⟨s.memOut, ?_, fun hlt => by simpa using h.memOut hlt⟩
  rw [Reg.advance, h.ridx, hwidx, h.tLast, h.valid]
  by_cases hlt : k < fw.mem.length
  · rw [if_pos hlt]
    by_cases hend : k + 1 = fw.mem.length
    · simp [hend, hk]
    · rw [incAddr_of_lt (by omega)]
      simp [hend, hk, show ¬ fw.mem.length ≤ k by omega, show k + 1 ≤ fw.mem.length by omega,
        show ¬ fw.mem.length ≤ k + 1 by omega, show k + 1 < fw.mem.length by omega]
  · rw [if_neg hlt]
    simp [show ¬ 0 = fw.mem.length by omega, show fw.mem.length ≤ k by omega,
      show ¬ k + 1 ≤ fw.mem.length by omega, show ¬ k + 1 < fw.mem.length by omega,
      show fw.mem.length ≤ k + 1 by omega]

variable (clkDiv2 tap ev) in
theorem AtReplay.r_next (h : AtReplay s fw fs data k rem) :
    ∃ tData, (s.cycle clkDiv2 tap ev).r = { s.r with
        ackInput := !(remNext (s.reqXfer ev.1) rem).isEmpty
        replyData := ⟨decide (k + (s.locConsumed ev.2).toNat ≤ fw.mem.length),
          decide (fw.mem.length ≤ k + (s.locConsumed ev.2).toNat), tData⟩
        ridx := if k + (s.locConsumed ev.2).toNat < fw.mem.length then
          k + (s.locConsumed ev.2).toNat + 1 else 0
        state := if !(remNext (s.reqXfer ev.1) rem).isEmpty ||
          decide (k + (s.locConsumed ev.2).toNat ≤ fw.mem.length) then .replay else .idle } ∧
      (k + (s.locConsumed ev.2).toNat ≤ fw.mem.length →
        tData = (data :: fw.mem).getD (k + (s.locConsumed ev.2).toNat) 0) := by
  have ha : s.r.ackInput = true → rem ≠ [] := by
    rw [h.ackInput]
    simp
  obtain ⟨-, hlast⟩ := Dev.absorb ev h.src h.passTdi ha
  have hack : (s.r.ackInput && !(!rem.isEmpty && (remNext (s.reqXfer ev.1) rem).isEmpty)) =
      !(remNext (s.reqXfer ev.1) rem).isEmpty := by
    rw [h.ackInput]
    cases rem with
    | nil => simp [remNext]
    | cons => simp
  have hnext : (s.cycle clkDiv2 tap ev).r = s.r.replay (s.comb ev.1 ev.2) s.memOut := by
    simp [Dev.cycle, Reg.next, h.state]
  rw [hnext]
  cases hloc : s.locConsumed ev.2 with
  | false =>
    -- the selector has not taken the word yet
    simp only [Bool.toNat_false, Nat.add_zero]
    refine ⟨s.r.replyData.tData, ?_, h.reply⟩
    have hd : s.r.replyData =
        ⟨decide (k ≤ fw.mem.length), decide (fw.mem.length ≤ k), s.r.replyData.tData⟩ := by
      rw [← h.valid, ← h.tLast]
    rw [Reg.replay_eq]
    simp only [Dev.comb, hlast, hack, hloc, Bool.false_eq_true, if_false, h.valid, ← h.ridx]
    rw [← hd]
  | true =>
    simp only [Bool.toNat_true]
    have hk : k ≤ fw.mem.length := by
      simp only [Dev.locConsumed, Bool.and_eq_true, h.valid, decide_eq_true_iff] at hloc
      exact hloc.2
    obtain ⟨tData, heq, htd⟩ := h.reply_next hk
    refine ⟨tData, ?_, htd⟩
    rw [Reg.replay_eq]
    simp only [Dev.comb, hlast, hack, hloc, if_true, heq]

variable (clkDiv2 tap ev) in
theorem AtReplay.memOut_next (h : AtReplay s fw fs data k rem)
    (hlt : k + (s.locConsumed ev.2).toNat < fw.mem.length) :
    (s.cycle clkDiv2 tap ev).memOut = fw.mem.getD (k + (s.locConsumed ev.2).toNat) 0 := by
  have hle := h.stores.le h.memValid
  cases hloc : s.locConsumed ev.2 with
  | false =>
    rw [hloc, Bool.toNat_false, Nat.add_zero] at hlt
    have hmo : (s.cycle clkDiv2 tap ev).memOut = s.memOut := by
      simp [Dev.cycle, Dev.comb, h.state, hloc]
    rw [hmo, Bool.toNat_false, Nat.add_zero]
    exact h.memOut hlt
  | true =>
    rw [hloc, Bool.toNat_true] at hlt
    have hmo : (s.cycle clkDiv2 tap ev).memOut = s.bufMem s.r.ridx := by
      simp [Dev.cycle, Dev.comb, h.state, hloc]
    rw [hmo, h.ridx, if_pos (by omega), Bool.toNat_true]
    exact h.stores.mem h.memValid _ hlt

variable (clkDiv2 tap ev) in
theorem AtReplay.next (h : AtReplay s fw fs data k rem) :
    (remNext (s.reqXfer ev.1) rem = [] ∧ fw.mem.length < k + (s.locConsumed ev.2).toNat →
      AtIdle (s.cycle clkDiv2 tap ev) fw fs) ∧
    (¬ (remNext (s.reqXfer ev.1) rem = [] ∧ fw.mem.length < k + (s.locConsumed ev.2).toNat) →
      AtReplay (s.cycle clkDiv2 tap ev) fw fs data (k + (s.locConsumed ev.2).toNat)
        (remNext (s.reqXfer ev.1) rem)) := by
  obtain ⟨tData, hr, htd⟩ := h.r_next clkDiv2 tap ev
  have hmo := h.memOut_next clkDiv2 tap ev
  have ha : s.r.ackInput = true → rem ≠ [] := by
    rw [h.ackInput]
    simp
  obtain ⟨hne, -⟩ := Dev.absorb ev h.src h.passTdi ha
  set rem' := remNext (s.reqXfer ev.1) rem
  set k' := k + (s.locConsumed ev.2).toNat
  have hsrc : (s.cycle clkDiv2 tap ev).src = beats rem' ++ fs.flatMap beats :=
    Dev.src_next h.src hne
  have hq : Quiet (s.cycle clkDiv2 tap ev) fw.hist :=
    (h.quiet.next (Dev.mTdi_of_not h.passTdi ev.1)).1
  have hst : Stores (s.cycle clkDiv2 tap ev) fw :=
    h.stores.congr (by rw [hr]) (by rw [hr]) (by rw [hr]) (Dev.writeMem_of_not h.passTdo _)
  constructor
  · rintro ⟨hre, hlt⟩
    rw [hre] at hsrc
    refine ⟨?_, ?_, ?_, ?_, ?_, ?_, hq, hst, by simpa using hsrc⟩
    · simp [hr, hre, hlt]
    · simp [hr, hlt]
    · simp [hr, hre]
    · rw [hr]; exact h.passTdo
    · rw [hr]; exact h.passTdi
    · rw [hr]; exact if_neg (by omega)
  · intro hopen
    refine ⟨?_, by rw [hr], ?_, by rw [hr], ?_, ?_, by rw [hr], hmo, by rw [hr], ?_, hq, hst,
      h.memValid, hsrc⟩
    · rw [hr]
      have : (!rem'.isEmpty || decide (k' ≤ fw.mem.length)) = true := by
        by_contra hcon
        exact hopen (by simpa using hcon)
      simp [this]
    · intro hle
      rw [hr]
      exact htd hle
    · rw [hr]; exact h.passTdo
    · rw [hr]; exact h.passTdi
    · intro hre
      by_contra hcon
      exact hopen ⟨hre, by omega⟩

end Replay

end XvcSupport.AxisToJtag
