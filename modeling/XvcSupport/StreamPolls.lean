import XvcSupport.StreamBoard

namespace XvcSupport.Tmem2BSCANWrapper

open AxisToJtag Axis2TmemFifo

variable {cs : BitVec 2} {tap : Tap} {s : Traffic} {d : Dev jtag} {b : Tmem} {a : Lines} {n : ℕ}

def Traffic.replies (tap : Tap) (s : Traffic) : List (BitVec 32) :=
  (replyFrames tap (Fw.init jtag.W) s.sent).flatten

theorem getLsbD_we_of_read (hwe : b.we = 0) (k : ℕ) : b.we.getLsbD k = false := by
  rw [hwe]
  exact BitVec.getLsbD_zero

theorem endWrite_of_read (hwe : b.we = 0) :
    endWrite (streamGenerics cs) (s.board.fifoIn tap false b a) = false := by
  have hno : (s.board.fifoIn tap false b a).tmem.we.getLsbD 2 = false := getLsbD_we_of_read hwe 2
  rw [endWrite, csWrite, hno, Bool.and_false, Bool.false_and]

theorem tmemRDEN_of_owner (howner : s.board.fifo.fifoInpOwnerAXIS = true) (i : Inp) :
    s.board.fifo.tmemRDEN (streamGenerics cs) i = false := by
  rw [Axis2TmemFifo.Reg.tmemRDEN, howner, Bool.not_true, Bool.and_false]

theorem legal_of_read (hwe : b.we = 0) (howner : s.board.fifo.fifoInpOwnerAXIS = true) :
    Legal cs tap s b a where
  noReset := by
    refine ⟨rfl, fun hwrite => ?_⟩
    have hno : (s.board.fifoIn tap false b a).tmem.we.getLsbD 2 = false := getLsbD_we_of_read hwe 2
    rw [csWrite, hno, Bool.and_false] at hwrite
    cases hwrite
  noBitBang := by
    intro _ hwrite
    rw [getLsbD_we_of_read hwe 3] at hwrite
    cases hwrite
  ends := by
    intro _ hend
    have hno : endWrite (streamGenerics cs) (s.board.fifoIn tap false b a) = false :=
      endWrite_of_read hwe
    rw [hno] at hend
    cases hend
  apart := by
    intro hread
    rw [tmemRDEN_of_owner howner] at hread
    cases hread

variable (cs tap a) in
theorem cycle_of_read (hwe : b.we = 0) (howner : s.board.fifo.fifoInpOwnerAXIS = true) :
    (s.cycle cs tap b a).sent = s.sent ∧ (s.cycle cs tap b a).reads = s.reads := by
  have hend : endWrite (streamGenerics cs) (s.board.fifoIn tap false b a) = false :=
    endWrite_of_read hwe
  simp [Traffic.cycle, hend, tmemRDEN_of_owner howner]

namespace Joint

theorem feed_of_read (hwe : b.we = 0) :
    feed cs tap s b a d = d.cycle CLK_DIV2_G tap s.board.event := by
  have hend : endWrite (streamGenerics cs) (s.board.fifoIn tap false b a) = false :=
    endWrite_of_read hwe
  rw [feed, hend, Bool.and_false, if_neg Bool.false_ne_true]

/-- The stream has still to fetch the first word of a frame. -/
def fetching (s : Traffic) : Bool := !s.board.fifo.fifoOutValid && !s.pending.isEmpty

/-- While the stream owns the incoming FIFO, there is room for the entity's word. -/
theorem tReadyInp_eq (h : Joint tap s d) (howner : s.board.fifo.fifoInpOwnerAXIS = true) :
    s.board.fifo.tReadyInp = true := by
  cases h.incoming with
  | filling done rest left hf =>
    apply hf.tReadyInp
    intro f hf'
    apply h.reply_fits
    rw [hf.split]
    exact List.mem_append_right done hf'
  | draining done more f got hd => exact absurd (of_decide_eq_true howner) hd.wcntReg_ne

theorem helped (h : Joint tap s d) (howner : s.board.fifo.fifoInpOwnerAXIS = true)
    (hfetch : fetching s = false) : d.Helped s.board.event := by
  refine ⟨h.tReadyInp_eq howner, ?_⟩
  rw [fetching, Bool.and_eq_false_iff] at hfetch
  rcases hfetch with hvalid | hempty
  · left
    rw [← h.same.1]
    exact (Bool.not_eq_false' _).mp hvalid
  · right
    rw [h.src, List.isEmpty_iff.mp ((Bool.not_eq_false' _).mp hempty)]
    rfl

theorem fetching_cycle (h : Joint tap s d) (hl : Legal cs tap s b a) (hfetch : fetching s = true) :
    (s.cycle cs tap b a).board.fifo.fifoOutValid = true := by
  obtain ⟨out, hout⟩ := h.outgoing
  rw [fetching, Bool.and_eq_true, Bool.not_eq_true', Bool.not_eq_true',
    List.isEmpty_eq_false_iff] at hfetch
  obtain ⟨hvalid, hpending⟩ := hfetch
  have howner : (s.outgoing out).r.fifoOutOwnerAXIS = true :=
    (hout.streams (g := streamGenerics cs)).owner.mpr hpending
  exact (hout.streams (g := streamGenerics cs)).offers _ hl.noReset howner hvalid

variable (cs a) in
theorem rank_cycle (h : Joint tap s d) (hat : DevAt CLK_DIV2_G tap (Fw.init jtag.W) s.sent n d)
    (htidy : AllTidy tap (Fw.init jtag.W) s.sent) (hwe : b.we = 0)
    (howner : s.board.fifo.fifoInpOwnerAXIS = true) (hpos : 0 < n) :
    ∃ n', DevAt CLK_DIV2_G tap (Fw.init jtag.W) (s.cycle cs tap b a).sent n'
        (feed cs tap s b a d) ∧
      2 * n' + (fetching (s.cycle cs tap b a)).toNat < 2 * n + (fetching s).toNat := by
  have hfit : ∀ f ∈ s.sent, AxisToJtag.Fits jtag f :=
    fun f hf => fits_of_width (a := 5) rfl (htidy.ne_nil hf)
  have hsound : d.Sound s.board.event := hat.sound htidy
  obtain ⟨n', hat', hle, hlt⟩ := hat.advances (by decide) hsound (hat.inRange hfit hsound)
  rw [feed_of_read hwe, (cycle_of_read cs tap a hwe howner).1]
  refine ⟨n', hat', ?_⟩
  cases hfetch : fetching s with
  | true =>
    have hvalid : (s.cycle cs tap b a).board.fifo.fifoOutValid = true :=
      h.fetching_cycle (legal_of_read hwe howner) hfetch
    have hfetched : fetching (s.cycle cs tap b a) = false := by
      rw [fetching, hvalid, Bool.not_true, Bool.false_and]
    rw [hfetched, Bool.toNat_true, Bool.toNat_false]
    omega
  | false =>
    have hlt' := hlt (Or.inr (h.helped howner hfetch)) hpos
    have hone := Bool.toNat_le (fetching (s.cycle cs tap b a))
    rw [Bool.toNat_false]
    omega

theorem all_read (h : Joint tap s d) (hat : DevAt CLK_DIV2_G tap (Fw.init jtag.W) s.sent 0 d)
    (htidy : AllTidy tap (Fw.init jtag.W) s.sent)
    (howner : s.board.fifo.fifoInpOwnerAXIS = true) : s.reads = s.replies tap := by
  have hsound : d.Sound (false, false) := hat.sound htidy
  have hout := (hat.end hsound).2.1
  have hall := h.incoming
  rw [hout, List.drop_length] at hall
  cases hall with
  | draining done more f got hd => exact absurd (of_decide_eq_true howner) hd.wcntReg_ne
  | filling done rest left hf =>
    have hsrc : ([] : List (BitVec 32 × Bool)) = beats left ++ rest.tail.flatMap beats := hf.src
    obtain ⟨hleft, -⟩ := List.append_eq_nil_iff.mp hsrc.symm
    have hrest : rest = [] := hf.last (beats_eq_nil.mp hleft)
    have hsplit := hf.split
    rw [hrest, List.append_nil] at hsplit
    rw [Traffic.replies, hsplit]
    exact hf.reads

end Joint

/-- Nothing has been written or read since `s0`, and `n` cycles are enough for what is to come. -/
structure Expects (tap : Tap) (s0 : Traffic) (n : ℕ) (s : Traffic) : Prop where
  tidy : AllTidy tap (Fw.init jtag.W) s.sent
  sent : s.sent = s0.sent
  reads : s.reads = s0.reads
  rank : ∃ d k, Joint tap s d ∧ DevAt CLK_DIV2_G tap (Fw.init jtag.W) s.sent k d ∧
    2 * k + (Joint.fetching s).toNat = n

variable {s0 : Traffic}

theorem Expects.not_read (h : Expects tap s0 n s) (hleft : s0.reads ≠ s0.replies tap) :
    s.reads ≠ s.replies tap := by
  rw [h.reads, Traffic.replies, h.sent]
  exact hleft

theorem Expects.cycle (h : Expects tap s0 n s) (hleft : s0.reads ≠ s0.replies tap) (hwe : b.we = 0)
    (howner : s.board.fifo.fifoInpOwnerAXIS = true) :
    ∃ n' < n, Expects tap s0 n' (s.cycle cs tap b a) := by
  obtain ⟨d, k, hjoint, hat, rfl⟩ := h.rank
  obtain ⟨hsent, hkept⟩ := cycle_of_read cs tap a hwe howner
  have hpos : 0 < k := by
    by_contra hzero
    obtain rfl : k = 0 := by omega
    exact h.not_read hleft (hjoint.all_read hat h.tidy howner)
  have htidy : AllTidy tap (Fw.init jtag.W) (s.cycle cs tap b a).sent := by
    rw [hsent]
    exact h.tidy
  obtain ⟨k', hat', hlt⟩ := hjoint.rank_cycle cs a hat h.tidy hwe howner hpos
  exact ⟨_, hlt, htidy, hsent.trans h.sent, hkept.trans h.reads, _, k',
    hjoint.cycle (legal_of_read hwe howner) htidy, hat', rfl⟩

theorem Expects.polls (h : Expects tap s0 n s) (hleft : s0.reads ≠ s0.replies tap)
    {evs : List (Tmem × Lines)} (hreads : ∀ ev ∈ evs, ev.1.we = 0) (hlen : n ≤ evs.length) :
    ∃ pre n', pre <+: evs ∧ Expects tap s0 n' (s.run cs tap pre) ∧
      (s.run cs tap pre).board.fifo.fifoInpOwnerAXIS = false := by
  refine runFrom_within (C := fun ev : Tmem × Lines => ev.1.we = 0)
    (Q := fun s : Traffic => s.board.fifo.fifoInpOwnerAXIS = false) ?_ ?_ h hreads hlen
  · intro n s ev h howner hwe
    exact h.cycle hleft hwe (by simpa using howner)
  · intro s h
    obtain ⟨d, k, hjoint, hat, hzero⟩ := h.rank
    obtain rfl : k = 0 := by omega
    by_contra howner
    exact h.not_read hleft (hjoint.all_read hat h.tidy (by simpa using howner))

/-- Polling ends: when the bus has written a frame, in whatever run after a reset, and not read its
reply, there is a number of accesses after which the reply is there, and the count in the status
register that of its words, if the bus writes nothing in between. -/
theorem stream_board_polls_end (cs : BitVec 2) (tap : Tap) (p : PowerUp)
    (evs : List (Tmem × Lines)) (hlegal : (p.traffic cs tap).LegalRun cs tap evs)
    (hleft : ((p.traffic cs tap).run cs tap evs).reads ≠
      ((p.traffic cs tap).run cs tap evs).replies tap) :
    let s := (p.traffic cs tap).run cs tap evs
    ∃ N, ∀ polls : List (Tmem × Lines), (∀ ev ∈ polls, ev.1.we = 0) → N ≤ polls.length →
      ∃ pre, pre <+: polls ∧ (s.run cs tap pre).board.fifo.fifoInpOwnerAXIS = false ∧
        (s.run cs tap pre).sent = s.sent ∧ (s.run cs tap pre).reads = s.reads ∧
        Answered tap (s.run cs tap pre) := by
  intro s
  obtain ⟨htidy, d, h⟩ : Served tap s := (p.served cs tap).run hlegal
  obtain ⟨n, hat⟩ := h.stage
  have hwait : Expects tap s _ s := ⟨htidy, rfl, rfl, d, n, h, hat, rfl⟩
  refine ⟨2 * n + (Joint.fetching s).toNat, fun polls hreads hlen => ?_⟩
  obtain ⟨pre, n', hpre, hwait', howner⟩ := hwait.polls hleft hreads hlen
  obtain ⟨d', k', h', -⟩ := hwait'.rank
  exact ⟨pre, hpre, howner, hwait'.sent, hwait'.reads, h'.answered hwait'.tidy⟩

def pollStatus : Tmem × Lines := (⟨1, 0, true, 0, 0⟩, ⟨0, 0⟩)

/-- The reply to a query is found by reading the status register again and again. -/
theorem stream_board_polls_end_query : ∃ pre, (∀ ev ∈ pre, ev = pollStatus) ∧
    (((sixCycles.traffic 0 fun _ _ tdi => tdi).run 0 (fun _ _ tdi => tdi) (oneQuery.take 2)).run 0
      (fun _ _ tdi => tdi) pre).board.fifo.fifoInpOwnerAXIS = false := by
  obtain ⟨N, hpolls⟩ := stream_board_polls_end 0 (fun _ _ tdi => tdi) sixCycles
    (oneQuery.take 2) (by unfold Traffic.LegalRun; decide +kernel) (by decide +kernel)
  obtain ⟨pre, hpre, howner, -⟩ := hpolls (List.replicate N pollStatus)
    (fun ev hev => by rw [List.eq_of_mem_replicate hev]; rfl) (List.length_replicate).ge
  exact ⟨pre, fun ev hev => List.eq_of_mem_replicate (hpre.subset hev), howner⟩

end XvcSupport.Tmem2BSCANWrapper
