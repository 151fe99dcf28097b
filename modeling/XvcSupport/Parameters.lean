import XvcSupport.StaleReplies

namespace XvcSupport.Protocol

open JtagDriver AxisToJtag

variable {g : Generics}

variable (g) in
/-- The header spells the parameters of the target. -/
def Spells (hdr : Header) : Prop := wordSize hdr = g.axisWidth ∧ memDepth hdr = g.memDepth

theorem spells_setQueryData (w : BitVec g.W) : Spells g ((setQueryData g w).setWidth 32) :=
  ⟨XvcConn.wordSize_setQueryData g w, XvcConn.memDepth_setQueryData g w⟩

/-- Nothing in flight can mislead a query: replies without error and shift requests, which
are echoed, spell the parameters of the target. -/
structure Settled (s : Sys g) : Prop where
  replies : ∀ r ∈ s.replies, r.octets ≠ [] → getErr (getHdr r.octets) = 0 →
    Spells g (getHdr r.octets)
  requests : ∀ m ∈ s.requests,
    AxisToJtagPkg.getCommand (getHdr m.octets) = AxisToJtagPkg.cmdTrans →
    Spells g (getHdr m.octets)

/-- A query starts with nothing misleading in flight. -/
def StartsSettled (s : Sys g) : Event → Prop
  | .query _ => s.waiting = none → Settled s
  | _ => True

/-- A query in progress is not misled, and after one has returned the parameters are the
target's. -/
structure Adopted (s : Sys g) : Prop where
  waits : ∀ p, s.waiting = some p → p.kind = .query → 4 ≤ s.drv.wordSize ∧ Settled s ∧
    AxisToJtagPkg.getCommand (getHdr p.msg) = AxisToJtagPkg.cmdQuery
  queried : (∃ r ∈ s.returns, r.kind = .query) →
    s.drv.wordSize = g.axisWidth ∧ s.drv.memDepth = g.memDepth

section Steps

variable {s : Sys g}

theorem Settled.forget {s' : Sys g} (h : Settled s) (hreq : s'.requests.Sublist s.requests)
    (hrep : s'.replies.Sublist s.replies) : Settled s' where
  replies r hr := h.replies r (hrep.subset hr)
  requests m hm := h.requests m (hreq.subset hm)

theorem Adopted.forget {s' : Sys g} (h : Adopted s) (hreq : s'.requests.Sublist s.requests)
    (hrep : s'.replies.Sublist s.replies) (hw : s'.waiting = none ∨ s'.waiting = s.waiting)
    (hd : s'.drv = s.drv) (hret : s'.returns = s.returns) : Adopted s' where
  waits p hp hk := by
    rcases hw with hw | hw
    · rw [hw] at hp
      cases hp
    · obtain ⟨h4, hs, hc⟩ := h.waits p (hw ▸ hp) hk
      exact ⟨hd ▸ h4, hs.forget hreq hrep, hc⟩
  queried := by
    rw [hd, hret]
    exact h.queried

theorem Adopted.again (h : Adopted s) {p : Waiting} (hp : s.waiting = some p) :
    Adopted (s.again p) := by
  rcases s.again_cases p with ha | ⟨n, ha⟩
  · rw [ha]
    exact h.forget (List.Sublist.refl _) (List.Sublist.refl _) (Or.inl rfl) rfl rfl
  · rw [ha]
    refine ⟨fun q hq hk => ?_, h.queried⟩
    obtain rfl := Option.some.inj hq
    obtain ⟨h4, hs, hc⟩ := h.waits p hp hk
    refine ⟨h4, ⟨hs.replies, fun m hm hm' => ?_⟩, hc⟩
    rcases List.mem_append.mp hm with hm | hm
    · exact hs.requests m hm hm'
    · rw [List.mem_singleton.mp hm, hc] at hm'
      exact absurd hm' (by decide)

theorem Adopted.accept (h : Adopted s) {p : Waiting} (hp : s.waiting = some p)
    (hk : p.kind = .query) {r : Packet} (hr : r ∈ s.replies)
    (hj : judge (getXid (getHdr p.msg)) (getHdr r.octets) = .accept)
    (hne : r.octets ≠ []) :
    (s.drv.adopt (getHdr r.octets)).1 = none ∧
      (s.drv.adopt (getHdr r.octets)).2.wordSize = g.axisWidth ∧
      (s.drv.adopt (getHdr r.octets)).2.memDepth = g.memDepth := by
  have h0 : getErr (getHdr r.octets) = 0 := by
    unfold judge at hj
    split_ifs at hj with he
    exact not_not.mp he
  obtain ⟨hw, hd⟩ := (h.waits p hp hk).2.1.replies r hr hne h0
  obtain ⟨h1, h2, h3, -⟩ := XvcConn.adopt_valid s.drv ⟨getHdr r.octets, hw ▸ g.four_le⟩
  exact ⟨h1, h2.trans hw, h3.trans hd⟩

theorem Adopted.receive (h : Adopted s) {p : Waiting} (hp : s.waiting = some p) {r : Packet}
    {rs : List Packet} (hr : s.replies = r :: rs) :
    Adopted ({ s with replies := rs : Sys g }.receive p r) := by
  have hmem : r ∈ s.replies := hr ▸ List.mem_cons_self
  have hsub : rs.Sublist s.replies := hr ▸ List.sublist_cons_self r rs
  have htdo : ∀ tdo, Adopted { s with replies := rs, tdo := tdo } := fun tdo =>
    h.forget (List.Sublist.refl _) hsub (Or.inr rfl) rfl rfl
  rcases Sys.receive_cases { s with replies := rs } p r with
    ⟨tdo, he⟩ | ⟨tdo, he⟩ | ⟨tdo, hst, hj, he⟩
  · rw [he]
    exact (htdo tdo).forget (List.Sublist.refl _) (List.Sublist.refl _) (Or.inl rfl) rfl rfl
  · rw [he]
    exact (htdo tdo).again hp
  · rw [he]
    cases hk : p.kind with
    | shift bits tms tdi =>
      simp only [Sys.accept, hk]
      refine ⟨by simp, ?_⟩
      rintro ⟨q, hq, hqk⟩
      rcases List.mem_append.mp hq with hq | hq
      · exact h.queried ⟨q, hq, hqk⟩
      · rw [List.mem_singleton.mp hq] at hqk
        cases hqk
    | query =>
      have hne : r.octets ≠ [] := by
        intro hnil
        have h4 := (h.waits p hp hk).1
        unfold storeReply at hst
        rw [hnil] at hst
        rw [if_pos (by simp only [List.length_nil]; omega)] at hst
        simp at hst
      obtain ⟨h1, h2, h3⟩ := h.accept hp hk hmem hj hne
      simp only [Sys.accept, hk]
      cases had : s.drv.adopt (getHdr r.octets) with
      | mk e d =>
        rw [had] at h1 h2 h3
        simp only at h1 h2 h3
        subst h1
        exact ⟨by simp, fun _ => ⟨h2, h3⟩⟩

/-- Whatever is served while nothing in flight is misleading, the reply is not either. -/
theorem Settled.serve (h : Settled s) (tap : Tap) {m : Packet} {ms : List Packet}
    (hm : s.requests = m :: ms) : Settled ({ s with requests := ms : Sys g }.serve tap m) := by
  have hmem : m ∈ s.requests := hm ▸ List.mem_cons_self
  refine ⟨fun r hr hne h0 => ?_, fun m' hm' => h.requests m' (hm ▸ List.mem_cons_of_mem _ hm')⟩
  rcases List.mem_append.mp hr with hr | hr
  · exact h.replies r hr hne h0
  · rw [List.mem_singleton.mp hr] at hne h0 ⊢
    cases hf : frame g m.octets with
    | nil =>
      simp only [hf] at hne
      exact absurd rfl hne
    | cons w ws =>
      simp only [hf] at h0 ⊢
      rcases getHdr_served g tap s.fw hf h0 with ⟨-, hh⟩ | ⟨hc, hh⟩
      · rw [hh]
        exact spells_setQueryData w
      · rw [hh]
        exact h.requests m hmem hc

theorem getCommand_queryMsg (d : Drv) (h4 : 4 ≤ d.wordSize) :
    AxisToJtagPkg.getCommand (getHdr d.queryMsg) = AxisToJtagPkg.cmdQuery := by
  rw [getHdr_queryMsg d h4]
  decide

theorem Adopted.next (tap : Tap) (ev : Event) (h : Adopted s) (hev : StartsSettled s ev) :
    Adopted (s.next tap ev) := by
  have hstep := s.step tap ev
  generalize s.next tap ev = s' at hstep
  cases hstep with
  | skip => exact h
  | query retry hidle h4 =>
    have hs := hev hidle
    have hc := getCommand_queryMsg s.drv h4
    refine ⟨fun p hp _ => ?_, h.queried⟩
    obtain rfl := Option.some.inj hp
    refine ⟨h4, ⟨hs.replies, fun m hm hm' => ?_⟩, hc⟩
    -- the new request is a query itself
    rcases List.mem_append.mp hm with hm | hm
    · exact hs.requests m hm hm'
    · rw [List.mem_singleton.mp hm, hc] at hm'
      exact absurd hm' (by decide)
  | sendVectors =>
    refine ⟨fun p hp hk => ?_, h.queried⟩
    obtain rfl := Option.some.inj hp
    cases hk
  | timeout p hw => exact h.again hw
  | receive p r rs hw hr => exact h.receive hw hr
  | lose _ requests replies hreq hrep => exact h.forget hreq hrep (Or.inr rfl) rfl rfl
  | serve m ms hm =>
    refine ⟨fun p hp hk => ?_, h.queried⟩
    obtain ⟨h4, hs, hc⟩ := h.waits p hp hk
    exact ⟨h4, hs.serve tap hm, hc⟩

end Steps

theorem Adopted.start (txBuf tdo : Mem) (xid : Xid) (fw : Fw g.W) :
    Adopted (Sys.start g txBuf tdo xid fw) where
  waits := nofun
  queried := nofun

/-- In every run whose queries all start settled, the driver has the target's parameters
from the first query on that returns. -/
theorem query_adopts_parameters (g : Generics) (tap : Tap) (txBuf tdo : Mem) (xid : Xid)
    (fw : Fw g.W) (evs : List Event)
    (hev : EveryStep (Sys.next tap) StartsSettled (Sys.start g txBuf tdo xid fw) evs) :
    let s := (Sys.start g txBuf tdo xid fw).run tap evs
    (∃ r ∈ s.returns, r.kind = .query) →
      s.drv.wordSize = g.axisWidth ∧ s.drv.memDepth = g.memDepth := by
  have h : Adopted ((Sys.start g txBuf tdo xid fw).run tap evs) :=
    runFrom_invariant (fun s ev hs hev => hs.next tap ev hev) (Adopted.start txBuf tdo xid fw) hev
  exact h.queried

theorem first_query_adopts :
    let evs := [.query 5, .serve, .receive]
    EveryStep (Sys.next fun _ _ tdi => tdi) StartsSettled slowStart evs ∧
      (∃ r ∈ (slowStart.run (fun _ _ tdi => tdi) evs).returns, r.kind = .query) ∧
      (slowStart.run (fun _ _ tdi => tdi) evs).drv.wordSize = slowTarget.axisWidth ∧
      (slowStart.run (fun _ _ tdi => tdi) evs).drv.memDepth = slowTarget.memDepth := by
  intro evs
  have hev : EveryStep (Sys.next fun _ _ tdi => tdi) StartsSettled slowStart evs :=
    ⟨fun _ => ⟨nofun, nofun⟩, trivial, trivial, trivial⟩
  have hlen : 0 < (slowStart.run (fun _ _ tdi => tdi) evs).returns.length := by decide +kernel
  have hret : ∃ r ∈ (slowStart.run (fun _ _ tdi => tdi) evs).returns, r.kind = .query :=
    ⟨_, List.getElem_mem hlen, rfl⟩
  exact ⟨hev, hret, query_adopts_parameters slowTarget _ _ _ _ _ evs hev hret⟩

/-- A shift of 32 bits is sent twice and answered twice.  The second answer, with 31 in its
length field, makes the next query adopt 16 octets and a depth of 1. -/
theorem stale_shift_reply_adopted :
    let s := slowStart.run (fun _ _ tdi => tdi) [.query 5, .serve, .receive,
      .sendVectors 5 32 (fun _ => 0x5a) (fun _ => 0xc3), .timeout, .serve, .serve, .receive,
      .query 5, .receive]
    ¬ ((∃ r ∈ s.returns, r.kind = .query) →
      s.drv.wordSize = slowTarget.axisWidth ∧ s.drv.memDepth = slowTarget.memDepth) := by
  intro s h
  have hlen : 0 < s.returns.length := by decide +kernel
  have hw := (h ⟨_, List.getElem_mem hlen, rfl⟩).1
  revert hw
  decide +kernel

end XvcSupport.Protocol
