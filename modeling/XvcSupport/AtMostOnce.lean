import XvcSupport.Protocol

namespace XvcSupport.Protocol

open JtagDriver AxisToJtag

variable {g : Generics}

/-- The calls, the requests in flight, the executions and the stored reply agree. -/
structure Ordered (s : Sys g) : Prop where
  sorted : s.requests.Pairwise fun m m' => m.call ≤ m'.call
  below : ∀ m ∈ s.requests, m.call < s.calls
  alike : ∀ m ∈ s.requests, ∀ m' ∈ s.requests, m.call = m'.call → m.octets = m'.octets
  waits : ∀ p, s.waiting = some p → p.call + 1 = s.calls ∧
    ∀ m ∈ s.requests, m.call = p.call → m.octets = p.msg
  logSorted : s.log.Pairwise fun e e' => e.call < e'.call
  logBelow : ∀ e ∈ s.log, e.call < s.calls ∧ ∀ m ∈ s.requests, e.call ≤ m.call
  held : ∀ e ∈ s.log, (∀ m ∈ s.requests, m.call = e.call →
      replays g s.fw (frame g m.octets) = true) ∧
    ∀ p, s.waiting = some p → p.call = e.call → replays g s.fw (frame g p.msg) = true

theorem Ordered.start (txBuf tdo : Mem) (xid : Xid) (fw : Fw g.W) :
    Ordered (Sys.start g txBuf tdo xid fw) where
  sorted := List.Pairwise.nil
  below := nofun
  alike := nofun
  waits := nofun
  logSorted := List.Pairwise.nil
  logBelow := nofun
  held := nofun

theorem Ordered.forget {s s' : Sys g} (h : Ordered s) (hreq : s'.requests.Sublist s.requests)
    (hw : s'.waiting = none ∨ s'.waiting = s.waiting) (hc : s'.calls = s.calls)
    (hfw : s'.fw = s.fw) (hlog : s'.log = s.log) : Ordered s' where
  sorted := h.sorted.sublist hreq
  below m hm := hc ▸ h.below m (hreq.subset hm)
  alike m hm m' hm' := h.alike m (hreq.subset hm) m' (hreq.subset hm')
  waits p hp := by
    rcases hw with hw | hw
    · rw [hw] at hp
      cases hp
    · obtain ⟨h1, h2⟩ := h.waits p (hw ▸ hp)
      exact ⟨hc ▸ h1, fun m hm => h2 m (hreq.subset hm)⟩
  logSorted := hlog ▸ h.logSorted
  logBelow e he := by
    obtain ⟨h1, h2⟩ := h.logBelow e (hlog ▸ he)
    exact ⟨hc ▸ h1, fun m hm => h2 m (hreq.subset hm)⟩
  held e he := by
    obtain ⟨h1, h2⟩ := h.held e (hlog ▸ he)
    rw [hfw]
    refine ⟨fun m hm => h1 m (hreq.subset hm), fun p hp => ?_⟩
    rcases hw with hw | hw
    · rw [hw] at hp
      cases hp
    · exact h2 p (hw ▸ hp)

theorem Ordered.push {s : Sys g} (h : Ordered s) (d : Drv) {p : Waiting} {calls : ℕ}
    (hcalls : p.call + 1 = calls) (hle : s.calls ≤ calls)
    (hcopy : ∀ m ∈ s.requests, m.call = p.call → m.octets = p.msg)
    (hlog : ∀ e ∈ s.log, e.call ≤ p.call ∧
      (p.call = e.call → replays g s.fw (frame g p.msg) = true)) :
    Ordered { s with
      drv := d
      waiting := some p
      calls := calls
      requests := s.requests ++ [⟨p.call, p.msg⟩] } where
  sorted := by
    refine List.pairwise_append.mpr ⟨h.sorted, List.pairwise_singleton _ _, ?_⟩
    intro m hm m' hm'
    have hlt := h.below m hm
    rw [List.mem_singleton.mp hm']
    change m.call ≤ p.call
    omega
  below m hm := by
    rcases List.mem_append.mp hm with hm | hm
    · exact (h.below m hm).trans_le hle
    · rw [List.mem_singleton.mp hm]
      exact Nat.lt_of_succ_le hcalls.le
  alike m hm m' hm' hc := by
    rcases List.mem_append.mp hm with hm | hm <;> rcases List.mem_append.mp hm' with hm' | hm'
    · exact h.alike m hm m' hm' hc
    · rw [List.mem_singleton.mp hm'] at hc ⊢
      exact hcopy m hm hc
    · rw [List.mem_singleton.mp hm] at hc ⊢
      exact (hcopy m' hm' hc.symm).symm
    · rw [List.mem_singleton.mp hm, List.mem_singleton.mp hm']
  waits q hq := by
    obtain rfl := Option.some.inj hq
    refine ⟨hcalls, fun m hm hc => ?_⟩
    rcases List.mem_append.mp hm with hm | hm
    · exact hcopy m hm hc
    · rw [List.mem_singleton.mp hm]
  logSorted := h.logSorted
  logBelow e he := by
    obtain ⟨h1, h2⟩ := h.logBelow e he
    refine ⟨h1.trans_le hle, fun m hm => ?_⟩
    rcases List.mem_append.mp hm with hm | hm
    · exact h2 m hm
    · rw [List.mem_singleton.mp hm]
      exact (hlog e he).1
  held e he := by
    refine ⟨fun m hm hc => ?_, fun q hq hc => ?_⟩
    · rcases List.mem_append.mp hm with hm | hm
      · exact (h.held e he).1 m hm hc
      · rw [List.mem_singleton.mp hm] at hc ⊢
        exact (hlog e he).2 hc
    · obtain rfl := Option.some.inj hq
      exact (hlog e he).2 hc

theorem Ordered.send {s : Sys g} (h : Ordered s) (d : Drv) (k : Kind) (retry : ℕ)
    (msg : List Byte) : Ordered (s.send d k retry msg) := by
  refine h.push d (p := ⟨s.calls, k, msg, retry⟩) rfl (Nat.le_succ _) ?_ ?_
  · intro m hm hc
    exact absurd hc (h.below m hm).ne
  · intro e he
    have hlt := (h.logBelow e he).1
    exact ⟨hlt.le, fun hc => absurd hc hlt.ne'⟩

theorem Ordered.resend {s : Sys g} (h : Ordered s) {p : Waiting} (hp : s.waiting = some p)
    (n : ℕ) : Ordered { s with
      waiting := some { p with retries := n }
      requests := s.requests ++ [⟨p.call, p.msg⟩] } := by
  obtain ⟨hcall, hcopy⟩ := h.waits p hp
  refine h.push s.drv (p := { p with retries := n }) hcall le_rfl hcopy ?_
  intro e he
  refine ⟨?_, (h.held e he).2 p hp⟩
  have hlt := (h.logBelow e he).1
  change e.call ≤ p.call
  omega

theorem Ordered.again {s : Sys g} (h : Ordered s) {p : Waiting} (hp : s.waiting = some p) :
    Ordered (s.again p) := by
  rcases s.again_cases p with ha | ⟨n, ha⟩
  · rw [ha]
    exact h.forget (List.Sublist.refl _) (Or.inl rfl) rfl rfl rfl
  · rw [ha]
    exact h.resend hp n

theorem Ordered.receive {s : Sys g} (h : Ordered s) {p : Waiting} (hp : s.waiting = some p)
    (r : Packet) : Ordered (s.receive p r) := by
  have htdo : ∀ tdo, Ordered { s with tdo := tdo } := fun tdo =>
    h.forget (List.Sublist.refl _) (Or.inr rfl) rfl rfl rfl
  rcases s.receive_cases p r with ⟨tdo, hr⟩ | ⟨tdo, hr⟩ | ⟨tdo, -, -, hr⟩
  · rw [hr]
    exact h.forget (List.Sublist.refl _) (Or.inl rfl) rfl rfl rfl
  · rw [hr]
    exact (htdo tdo).again hp
  · rw [hr]
    obtain ⟨h1, h2, h3, h4, h5, h6⟩ := Sys.accept_frame { s with tdo := tdo } p r (getHdr r.octets)
    exact (htdo tdo).forget (by rw [h3]) (Or.inl h1) h2 h5 h6

section Serve

variable {s : Sys g} {m : Packet} {ms : List Packet}

/-- A request that does not start the core; the stored reply is lost only when no call
before this one needs it. -/
theorem Ordered.quiet (hm : s.requests = m :: ms) (h : Ordered s) (fw : Fw g.W)
    (replies : List Packet) (hfw : fw = s.fw ∨ ∀ e ∈ s.log, e.call < m.call) :
    Ordered { s with requests := ms, fw := fw, replies := replies } := by
  have hsub : ∀ m' ∈ ms, m' ∈ s.requests := fun m' hm' => hm ▸ List.mem_cons_of_mem _ hm'
  have hsorted := h.sorted
  rw [hm, List.pairwise_cons] at hsorted
  have hcalls := h.below m (hm ▸ List.mem_cons_self)
  refine ⟨hsorted.2, fun m' hm' => h.below m' (hsub m' hm'),
    fun a ha b hb => h.alike a (hsub a ha) b (hsub b hb), fun p hp => ?_, h.logSorted,
    fun e he => ⟨(h.logBelow e he).1, fun m' hm' => (h.logBelow e he).2 m' (hsub m' hm')⟩,
    fun e he => ⟨fun m' hm' hc => ?_, fun p hp hc => ?_⟩⟩
  · obtain ⟨h1, h2⟩ := h.waits p hp
    exact ⟨h1, fun m' hm' => h2 m' (hsub m' hm')⟩
  · rcases hfw with rfl | hlt
    · exact (h.held e he).1 m' (hsub m' hm') hc
    · have := hlt e he
      have := hsorted.1 m' hm'
      omega
  · rcases hfw with rfl | hlt
    · exact (h.held e he).2 p hp hc
    · have := hlt e he
      have := (h.waits p hp).1
      omega

theorem Ordered.execute (hd : 0 < g.memDepth) (hm : s.requests = m :: ms) (h : Ordered s)
    {w : BitVec g.W} {ws : List (BitVec g.W)} (hf : frame g m.octets = w :: ws)
    (hst : starts g s.fw (w :: ws) = true) {fw : Fw g.W} (hx : fw.xid = AxisToJtagPkg.getXid w)
    (hv : fw.memValid = true) (replies : List Packet) {e : Exec g.W} (he : e.call = m.call) :
    Ordered { s with requests := ms, fw := fw, replies := replies, log := s.log ++ [e] } := by
  have hmem : m ∈ s.requests := hm ▸ List.mem_cons_self
  have hsub : ∀ m' ∈ ms, m' ∈ s.requests := fun m' hm' => hm ▸ List.mem_cons_of_mem _ hm'
  have hsorted := h.sorted
  rw [hm, List.pairwise_cons] at hsorted
  have hcalls := h.below m hmem
  -- a request whose call has been executed replays, and would not start the core
  have hlt : ∀ e ∈ s.log, e.call < m.call := by
    intro e he
    refine lt_of_le_of_ne ((h.logBelow e he).2 m hmem) fun heq => ?_
    have hrep := (h.held e he).1 m hmem heq.symm
    rw [hf, not_replays_of_starts g hst] at hrep
    cases hrep
  have hrep : replays g fw (frame g m.octets) = true := by
    rw [hf]
    exact replays_of_starts g hd hst hx hv
  refine ⟨hsorted.2, fun m' hm' => h.below m' (hsub m' hm'),
    fun a ha b hb => h.alike a (hsub a ha) b (hsub b hb), fun p hp => ?_, ?_,
    fun e' he' => ?_, fun e' he' => ?_⟩
  · obtain ⟨h1, h2⟩ := h.waits p hp
    exact ⟨h1, fun m' hm' => h2 m' (hsub m' hm')⟩
  · refine List.pairwise_append.mpr ⟨h.logSorted, List.pairwise_singleton _ _, ?_⟩
    intro e1 he1 e2 he2
    rw [List.mem_singleton.mp he2, he]
    exact hlt e1 he1
  · rcases List.mem_append.mp he' with he' | he'
    · exact ⟨(h.logBelow e' he').1, fun m' hm' => (h.logBelow e' he').2 m' (hsub m' hm')⟩
    · rw [List.mem_singleton.mp he', he]
      exact ⟨hcalls, hsorted.1⟩
  · rcases List.mem_append.mp he' with he' | he'
    · -- no request of an earlier call is left
      have := hlt e' he'
      refine ⟨fun m' hm' hc => ?_, fun p hp hc => ?_⟩
      · have := hsorted.1 m' hm'
        omega
      · have := (h.waits p hp).1
        omega
    · rw [List.mem_singleton.mp he', he]
      refine ⟨fun m' hm' hc => ?_, fun p hp hc => ?_⟩
      · rw [h.alike m' (hsub m' hm') m hmem hc]
        exact hrep
      · rw [← (h.waits p hp).2 m hmem hc.symm]
        exact hrep

theorem Ordered.serve (hd : 0 < g.memDepth) (tap : Tap) (hm : s.requests = m :: ms)
    (h : Ordered s) : Ordered ({ s with requests := ms : Sys g }.serve tap m) := by
  have hmem : m ∈ s.requests := hm ▸ List.mem_cons_self
  cases hf : frame g m.octets with
  | nil =>
    simp only [Sys.serve, hf, starts, Bool.false_eq_true, if_false]
    exact h.quiet hm _ _ (Or.inl rfl)
  | cons w ws =>
  have hlog : ∀ e ∈ s.log, replays g s.fw (w :: ws) = false → e.call < m.call := by
    intro e he hrep
    refine lt_of_le_of_ne ((h.logBelow e he).2 m hmem) fun heq => ?_
    have := (h.held e he).1 m hmem heq.symm
    rw [hf, hrep] at this
    cases this
  have hserved := served g tap s.fw w ws
  simp only [Sys.serve, hf]
  generalize AxisToJtag.serve g tap s.fw (w :: ws) = r at hserved
  cases hserved with
  | failed w' fw err hq new valid =>
    simp only [hq.1, Bool.false_eq_true, if_false]
    exact h.quiet hm fw _ (Or.inr fun e he => hlog e he hq.2)
  | query cmd hq =>
    simp only [hq.1, Bool.false_eq_true, if_false]
    exact h.quiet hm _ _ (Or.inr fun e he => hlog e he hq.2)
  | replay held =>
    have hst : starts g s.fw (w :: ws) = false := by
      by_contra hcon
      rw [not_replays_of_starts g (by simpa using hcon)] at held
      cases held
    simp only [hst, Bool.false_eq_true, if_false]
    exact h.quiet hm _ _ (Or.inl rfl)
  | execute hst =>
    simp only [hst, if_true]
    exact h.execute hd hm hf hst rfl (by simpa using hd) _ rfl

end Serve

theorem Ordered.next {s : Sys g} (hd : 0 < g.memDepth) (tap : Tap) (h : Ordered s) (ev : Event) :
    Ordered (s.next tap ev) := by
  have hstep := s.step tap ev
  generalize s.next tap ev = s' at hstep
  cases hstep with
  | skip => exact h
  | query => exact h.send _ _ _ _
  | sendVectors => exact h.send _ _ _ _
  | timeout p hw => exact h.again hw
  | receive p r rs hw hr =>
    have hs : Ordered { s with replies := rs } :=
      h.forget (List.Sublist.refl _) (Or.inr rfl) rfl rfl rfl
    exact hs.receive hw r
  | lose _ requests replies hreq => exact h.forget hreq (Or.inr rfl) rfl rfl rfl
  | serve m ms hm => exact h.serve hd tap hm

/-- Whatever is lost, delayed or sent again, the core starts at most once for each call
and in the order of the calls; once it has, every further request of the call is answered
from memory. -/
theorem core_starts_at_most_once (g : Generics) (hd : 0 < g.memDepth) (tap : Tap)
    (txBuf tdo : Mem) (xid : Xid) (fw : Fw g.W) (evs : List Event) :
    let s := (Sys.start g txBuf tdo xid fw).run tap evs
    (s.log.map Exec.call).Pairwise (· < ·) ∧
      ∀ m ms, s.requests = m :: ms → m.call ∈ s.log.map Exec.call →
        replays g s.fw (frame g m.octets) = true := by
  have h : Ordered ((Sys.start g txBuf tdo xid fw).run tap evs) :=
    runFrom_induction (fun s ev hs => hs.next hd tap ev) (Ordered.start txBuf tdo xid fw) evs
  refine ⟨List.pairwise_map.mpr h.logSorted, fun m ms hm hcall => ?_⟩
  obtain ⟨e, he, hc⟩ := List.mem_map.mp hcall
  exact (h.held e he).1 m (hm ▸ List.mem_cons_self) hc.symm

/-- A shift of 32 bits whose first reply is lost. -/
theorem core_starts_once_retried :
    let s := (Sys.start XvcConn.smallTarget (fun _ => 0) (fun _ => 0) 0 (Fw.init _)).run
      (fun _ _ tdi => tdi) [.sendVectors 5 32 (fun _ => 0x5a) (fun _ => 0xc3), .serve,
        .loseReply 0, .timeout]
    (s.log.map Exec.call).Pairwise (· < ·) ∧
      ∀ m ms, s.requests = m :: ms → m.call ∈ s.log.map Exec.call →
        replays XvcConn.smallTarget s.fw (frame XvcConn.smallTarget m.octets) = true :=
  core_starts_at_most_once XvcConn.smallTarget (by decide) _ _ _ _ _ _

end XvcSupport.Protocol
