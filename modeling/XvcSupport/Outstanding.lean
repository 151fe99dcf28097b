import XvcSupport.Handshakes

namespace XvcSupport.AxisToJtagCore

open AxisToJtag JtagSerDesCore AxisToJtagPkg

variable {W : ℕ} {t : Task W} {tap : Tap} {clkDiv2 : ℕ} {ph : Phase} {o : ℕ} {full : Bool}
  {pos : Pos} {r : Reg W} {s : JtagSerDesCore.Reg W} {h : List Edge}

/-- The payload has all the words that are announced. -/
def Task.Complete (t : Task W) : Prop := 2 * wordCount W t.total ≤ t.payload.length

theorem Task.Complete.not_aborts (hW : 0 < W) (hc : t.Complete) : ¬ t.Aborts := by
  rintro ⟨hpos, hlen, hlt⟩
  have hcount := (Task.lt_wordCount hW).mpr hlt
  unfold Task.Complete at hc
  omega

theorem CoreAt.fine (hW : 0 < W) (hc : t.Complete) (hr : CoreAt t tap ph o full r)
    (valid rdy : Bool) : ph.Fine t o full valid rdy := by
  cases hr with
  | abort hab => exact absurd hab (hc.not_aborts hW)
  | doomed hab => exact absurd hab (hc.not_aborts hW)
  | _ => trivial

def Phase.started (t : Task W) : Phase → ℕ
  | .getTms c => c
  | .getTdi c | .shift c => c + 1
  | _ => t.count

def Phase.accepts (t : Task W) : Phase → Bool
  | .getTms _ | .getTdi _ => true
  | .discard a _ => decide (a ≠ t.payload.length)
  | _ => false

theorem CoreAt.counters (hr : CoreAt t tap ph o full r) (hne : ph ≠ .idle) :
    r.iCnt = BitVec.ofNat 2 (ph.started t) ∧ r.oCnt = BitVec.ofNat 2 o := by
  cases hr with
  | idle => exact absurd rfl hne
  | _ => exact ⟨rfl, rfl⟩

theorem CoreAt.state_ne_idle (hr : CoreAt t tap ph o full r) (hne : ph ≠ .idle) :
    r.state ≠ .idle := by
  cases hr with
  | idle => exact absurd rfl hne
  | final _ hst => rcases hst with rfl | rfl <;> simp
  | abortWait _ hst => rcases hst with rfl | rfl <;> simp
  | _ => simp

theorem CoreAt.accepted_lt (hr : CoreAt t tap ph o full r) (hacc : ph.accepts t = true) :
    ph.accepted t < t.payload.length := by
  have htwo := t.two_count_le
  cases hr with
  | getTms hc hl => exact hl
  | getTdi hc => simp only [Phase.accepted]; omega
  | discard hpos hseen ha hle =>
    apply lt_of_le_of_ne hle
    simpa [Phase.accepts] using hacc
  | _ => simp [Phase.accepts] at hacc

/-- At most three words are outstanding. -/
theorem Joint.started_le (hj : Joint t tap clkDiv2 ph o full pos r s h) :
    o ≤ ph.started t ∧ ph.started t ≤ o + 3 := by
  have hle := hj.le_handed
  have hge := hj.handed_le
  cases ph <;> simp only [Phase.handed, Phase.started] at hle hge ⊢ <;> omega

theorem Phase.started_next (hW : 0 < W) (hc : t.Complete) (hr : CoreAt t tap ph o full r)
    (hne : ph ≠ .idle) {valid rdy iReady oValid : Bool} :
    (ph.next t o full valid rdy iReady oValid).started t = ph.started t ∨
      (ph.next t o full valid rdy iReady oValid).started t = ph.started t + 1 := by
  cases hr with
  | idle => exact absurd rfl hne
  | @getTms c _ _ _ _ _ _ _ _ hlt hl =>
    have hlen : t.payload.length ≠ 2 * c + 1 := by
      have hcount := (Task.lt_wordCount hW).mpr hlt
      unfold Task.Complete at hc
      omega
    simp only [Phase.next, hlen, if_false, false_and]
    split_ifs <;> simp [Phase.started]
  | getTdi => simp only [Phase.next]; split_ifs <;> simp [Phase.started]
  | @shift c _ _ _ _ _ _ _ hlt =>
    simp only [Phase.next]
    split_ifs with hi hl
    · left
      exact ((t.last_iff hW hlt).mp hl).1.symm
    · simp [Phase.started]
    · simp [Phase.started]
  | drain => simp only [Phase.next]; split_ifs <;> simp [Phase.started]
  | align => simp only [Phase.next]; split_ifs <;> simp [Phase.started]
  | discard => simp only [Phase.next]; split_ifs <;> simp [Phase.started]
  | final => simp only [Phase.next]; split_ifs <;> simp [Phase.started]
  | abort => simp only [Phase.next]; split_ifs <;> simp [Phase.started]
  | abortWait => simp only [Phase.next]; split_ifs <;> simp [Phase.started]
  | doomed => simp [Phase.next, Phase.started]

theorem Reg.next_sReady (r : Reg W) (m : Axis W) (rdy : Bool) (s : JtagSerDesCore.Reg W) :
    (r.next m rdy s).sReady = (r.fsm m rdy s.iReady).sReady := by
  simp only [Reg.next, Reg.output]
  split_ifs <;> rfl

theorem CoreAt.closed_next (hW : 0 < W) (hc : t.Complete) (hr : CoreAt t tap ph o full r)
    (hne : ph ≠ .idle) {m : Axis W} {rdy : Bool} (hm : Feeds t (ph.accepted t) m)
    (hclosed : ph.accepts t = false → r.sReady = false) {o' : ℕ} {full' : Bool}
    (hr' : CoreAt t tap (ph.next t o full m.tValid rdy s.iReady s.oValid) o' full'
      (r.next m rdy s))
    (hacc : (ph.next t o full m.tValid rdy s.iReady s.oValid).accepts t = false) :
    (r.next m rdy s).sReady = false := by
  cases hr with
  | idle => exact absurd rfl hne
  -- a complete request does not end on a TMS word
  | @getTms c _ _ _ _ _ _ _ _ hlt hl =>
    have hlen : t.payload.length ≠ 2 * c + 1 := by
      have hcount := (Task.lt_wordCount hW).mpr hlt
      unfold Task.Complete at hc
      omega
    simp only [Phase.next, hlen, if_false, false_and] at hacc
    split_ifs at hacc <;> simp [Phase.accepts] at hacc
  | @getTdi c =>
    simp only [Phase.next] at hacc hr'
    split_ifs at hacc hr' with hv
    · generalize Reg.next _ m rdy s = r' at hr' ⊢
      cases hr'
      rfl
    · simp [Phase.accepts] at hacc
  | @shift c =>
    simp only [Phase.next] at hacc hr'
    split_ifs at hacc hr' with hi hl
    · generalize Reg.next _ m rdy s = r' at hr' ⊢
      cases hr'
      rfl
    · simp [Phase.accepts] at hacc
    · generalize Reg.next _ m rdy s = r' at hr' ⊢
      cases hr'
      rfl
  | drain =>
    rw [Reg.next_sReady]
    simp [Reg.fsm]
  | align =>
    have hready := hclosed rfl
    rw [Reg.next_sReady]
    simp only [Reg.fsm]
    split_ifs <;> exact hready
  | @discard a ready _ _ _ _ sReady _ hpos hseen ha hle hready =>
    rw [Reg.next_sReady]
    -- `DISCARD_S` keeps accepting until `TLAST`
    by_cases hend : a = t.payload.length
    · have hno : sReady = false := hclosed (by simp [Phase.accepts, hend])
      simp [Reg.fsm, hseen, hend, hno]
    · have hsame := hready hend
      simp only [Phase.next, hend, if_false] at hacc
      cases hx : (ready && m.tValid) with
      | false => simp [hx, Phase.accepts, hend] at hacc
      | true =>
        rw [Bool.and_eq_true] at hx
        have hlast := (hm hx.2).2.2
        by_cases hfin : a + 1 = t.payload.length
        · have htlast : m.tLast = true := by
            rw [hlast]
            exact decide_eq_true hfin
          simp [Reg.fsm, hseen, hend, hsame, hx.1, hx.2, htlast]
        · simp [hx.1, hx.2, hfin, Phase.accepts] at hacc
  | @final state _ _ _ _ sReady hpos hst =>
    have hno : sReady = false := hclosed rfl
    rw [Reg.next_sReady]
    rcases hst with rfl | rfl
    · simp only [Reg.fsm]
      split_ifs <;> exact hno
    · simp [Reg.fsm, hno]
  | abort hab => exact absurd hab (hc.not_aborts hW)
  | abortWait hab => exact absurd hab (hc.not_aborts hW)
  | doomed hab => exact absurd hab (hc.not_aborts hW)

theorem CoreAt.tdoValid_eq (hr : CoreAt t tap ph o full r) : r.tdoValid = full := by
  cases hr <;> rfl

theorem CoreAt.shift_of_tdiValid (hr : CoreAt t tap ph o full r) (hv : r.tdiValid = true) :
    r.state = .shift := by
  cases hr with
  | shift => rfl
  | _ => cases hv

namespace Link

/-- A frame with all the words that its header announces before its `TLAST`. -/
def WellFormed : List (BitVec W) → Prop
  | [] => False
  | data :: payload => 2 * wordCount W ((getLen data).toNat + 1) ≤ payload.length

instance : DecidablePred (@WellFormed W)
  | [] => inferInstanceAs (Decidable False)
  | _ :: payload => inferInstanceAs (Decidable (_ ≤ payload.length))

variable {l : Link W} {ev : Ev} {frames : List (List (BitVec W))}

/-- Between frames. -/
structure Resting (l : Link W) (frames : List (List (BitVec W))) : Prop where
  rests : Rests l.core l.ser
  counted : l.started = l.done
  src : l.src = frames.flatMap beats

/-- Within a frame; the registers are those of a run in which TDO is low. -/
structure Working (clkDiv2 : ℕ) (l : Link W) (frames : List (List (BitVec W))) (t : Task W)
    (ph : Phase) (o : ℕ) (full : Bool) (pos : Pos) : Prop where
  shadow : ∃ x y h, Joint t (fun _ _ _ => false) clkDiv2 ph o full pos { l.core with tdo := x }
    { l.ser with tdo := y } h
  work : ph ≠ .idle
  complete : t.Complete
  started : l.started = ph.started t
  done : l.done = o
  closed : ph.accepts t = false → l.core.sReady = false
  src : l.src = beats (t.payload.drop (ph.accepted t)) ++ frames.flatMap beats

/-- The counters follow the numbers. -/
structure Counted (l : Link W) : Prop where
  iCnt : l.core.iCnt = BitVec.ofNat 2 l.started
  oCnt : l.core.oCnt = BitVec.ofNat 2 l.done

theorem Resting.tidy (h : Resting l frames) : Tidy l := by
  have hr := h.rests
  refine ⟨?_, ?_, ?_, ?_⟩
  · intro hw
    rw [hr.ser] at hw
    cases hw
  · intro hs
    rw [hr.ser] at hs
    cases hs
  · intro hv
    rw [hr.tdiValid] at hv
    cases hv
  · intro _ _
    exact hr.tdoValid

theorem Working.tidy (h : Working clkDiv2 l frames t ph o full pos) : Tidy l := by
  obtain ⟨x, y, hist, hj⟩ := h.shadow
  refine ⟨fun hw => hj.ser.wai_eq hw, fun hs hready => hj.ser.tck_of_ack hs hready,
    fun hv => hj.core.shift_of_tdiValid hv, ?_⟩
  intro hv hw
  have hfull := hj.clash (hj.ser.oValid_eq.symm.trans hv) (hj.ser.waits_of_ne_wai hw)
  exact hj.core.tdoValid_eq.trans hfull

theorem ofNat_two_succ_ne (n : ℕ) : BitVec.ofNat 2 (n + 1) ≠ BitVec.ofNat 2 n := by
  intro heq
  have := congrArg BitVec.toNat heq
  simp only [BitVec.toNat_ofNat] at this
  omega

theorem started_cycle (h : l.core.state ≠ .idle) {n : ℕ}
    (heq : (l.cycle clkDiv2 ev).core.iCnt = BitVec.ofNat 2 n)
    (hcnt : l.core.iCnt = BitVec.ofNat 2 l.started)
    (hn : n = l.started ∨ n = l.started + 1) : (l.cycle clkDiv2 ev).started = n := by
  have hdef : (l.cycle clkDiv2 ev).started =
      if (l.cycle clkDiv2 ev).core.iCnt = l.core.iCnt then l.started else l.started + 1 := by
    simp [cycle, h]
  rw [hdef, heq, hcnt]
  rcases hn with rfl | rfl
  · rw [if_pos rfl]
  · rw [if_neg (ofNat_two_succ_ne _)]

theorem done_cycle (h : l.core.state ≠ .idle) {n : ℕ}
    (heq : (l.cycle clkDiv2 ev).core.oCnt = BitVec.ofNat 2 n)
    (hcnt : l.core.oCnt = BitVec.ofNat 2 l.done)
    (hn : n = l.done ∨ n = l.done + 1) : (l.cycle clkDiv2 ev).done = n := by
  have hdef : (l.cycle clkDiv2 ev).done =
      if (l.cycle clkDiv2 ev).core.oCnt = l.core.oCnt then l.done else l.done + 1 := by
    simp [cycle, h]
  rw [hdef, heq, hcnt]
  rcases hn with rfl | rfl
  · rw [if_pos rfl]
  · rw [if_neg (ofNat_two_succ_ne _)]

theorem Counted.next (h : Counted l) (hidle : l.core.state = .idle → l.ser.oValid = false) :
    Counted (l.cycle clkDiv2 ev) := by
  have hi : (l.cycle clkDiv2 ev).core.iCnt = _ := Reg.next_iCnt l.core _ _ _
  have ho : (l.cycle clkDiv2 ev).core.oCnt = _ := Reg.next_oCnt l.core _ _ _
  by_cases hst : l.core.state = .idle
  · have htakes : l.core.takes ev.ready l.ser = false := by simp [Reg.takes, hidle hst]
    rw [if_pos hst] at hi
    rw [htakes, if_neg (by simp), if_pos hst] at ho
    exact ⟨by rw [hi]; simp [cycle, hst], by rw [ho]; simp [cycle, hst]⟩
  · rw [if_neg hst, h.iCnt, ← BitVec.ofNat_add] at hi
    have hstep : (l.cycle clkDiv2 ev).core.oCnt =
        BitVec.ofNat 2 (l.done + (l.core.takes ev.ready l.ser).toNat) := by
      rw [ho, if_neg hst, h.oCnt]
      cases l.core.takes ev.ready l.ser with
      | false => rfl
      | true => exact ofNat_two_succ _
    refine ⟨?_, ?_⟩
    · rw [started_cycle hst hi h.iCnt]
      · exact hi
      · cases l.core.starts (l.mAxisTmsTdi ev) <;> simp
    · rw [done_cycle hst hstep h.oCnt]
      · exact hstep
      · cases l.core.takes ev.ready l.ser <;> simp

def word (l : Link W) (ev : Ev) : Axis W :=
  if l.core.sReady then l.mAxisTmsTdi ev else Axis.init W

theorem cycle_core (l : Link W) (ev : Ev) :
    (l.cycle clkDiv2 ev).core = l.core.next (l.word ev) ev.ready l.ser := by
  cases hs : l.core.sReady with
  | false => exact Reg.next_of_no_word (by simp [hs]) (by simp [hs]) _ _
  | true => rw [word, if_pos hs, cycle]

theorem cycle_src (l : Link W) (ev : Ev) :
    (l.cycle clkDiv2 ev).src =
      if (l.word ev).tValid && l.core.sReady then l.src.tail else l.src := by
  cases hs : l.core.sReady <;> simp [cycle, word, hs]

theorem Working.feeds (h : Working clkDiv2 l frames t ph o full pos) (ev : Ev) :
    Feeds t (ph.accepted t) (l.word ev) := by
  obtain ⟨x, y, hist, hj⟩ := h.shadow
  intro hv
  cases hs : l.core.sReady with
  | false => simp [word, hs, Axis.init] at hv
  | true =>
    have hacc : ph.accepts t = true := by
      by_contra hcon
      rw [h.closed (by simpa using hcon)] at hs
      cases hs
    have hlt := hj.core.accepted_lt hacc
    have hsrc := h.src
    rw [beats_drop hlt] at hsrc
    simp [word, hs, mAxisTmsTdi, hsrc, hlt]

theorem Working.shadow_next (hW : 0 < W) (hD : 0 < clkDiv2)
    (h : Working clkDiv2 l frames t ph o full pos) (ev : Ev) :
    (∃ x y hist, Joint t (fun _ _ _ => false) clkDiv2
      (ph.next t o full (l.word ev).tValid ev.ready l.ser.iReady l.ser.oValid)
      (o + (takesOver full (ev.ready && ph.passes) l.ser.oValid).toNat)
      (fills full (ev.ready && ph.passes) l.ser.oValid)
      (pos.next t.job clkDiv2 l.core.tdiValid (l.core.tdoReady ev.ready))
      { (l.cycle clkDiv2 ev).core with tdo := x } { (l.cycle clkDiv2 ev).ser with tdo := y }
      hist) ∧
    ((ph.next t o full (l.word ev).tValid ev.ready l.ser.iReady l.ser.oValid).accepts t = false →
      (l.cycle clkDiv2 ev).core.sReady = false) := by
  obtain ⟨x, y, hist, hj⟩ := h.shadow
  have hnext := hj.next hW hD h.work (h.feeds ev) (hj.core.fine hW h.complete _ ev.ready)
  have hclosed := hj.core.closed_next hW h.complete h.work (h.feeds ev) h.closed hnext.core
  have hcontrol : Reg.control (Reg.next { l.core with tdo := x } (l.word ev) ev.ready
      { l.ser with tdo := y }) = (l.core.next (l.word ev) ev.ready l.ser).control :=
    Reg.control_next _ _ rfl rfl
  have hcore := Reg.eq_of_control hcontrol
  have hcontrol : JtagSerDesCore.Reg.control { l.ser with tdo := y } = l.ser.control := rfl
  have hser := JtagSerDesCore.Reg.eq_of_control
    (JtagSerDesCore.Reg.control_next clkDiv2 (l.core.serIn ev.ready ev.tdo) hcontrol false)
  rw [← cycle_core] at hcore
  rw [hcore] at hnext hclosed
  exact ⟨⟨_, _, _, hser ▸ hnext⟩, hclosed⟩

theorem Working.src_next (hW : 0 < W) (h : Working clkDiv2 l frames t ph o full pos)
    (hne : ph.next t o full (l.word ev).tValid ev.ready l.ser.iReady l.ser.oValid ≠ .idle) :
    (l.cycle clkDiv2 ev).src = beats (t.payload.drop
      ((ph.next t o full (l.word ev).tValid ev.ready l.ser.iReady l.ser.oValid).accepted t)) ++
        frames.flatMap beats := by
  obtain ⟨x, y, hist, hj⟩ := h.shadow
  have hacc : _ = ph.accepted t + ((l.word ev).tValid && l.core.sReady).toNat :=
    hj.core.accepted_next hW h.work (h.feeds ev) (hj.core.fine hW h.complete _ ev.ready) hne
  rw [cycle_src, hacc, h.src]
  cases hx : ((l.word ev).tValid && l.core.sReady) with
  | false => simp
  | true =>
    rw [Bool.and_eq_true] at hx
    rw [beats_drop (h.feeds ev hx.1).1]
    simp

theorem Working.next (hW : 0 < W) (hD : 0 < clkDiv2)
    (h : Working clkDiv2 l frames t ph o full pos) (hcnt : Counted l)
    (hne : ph.next t o full (l.word ev).tValid ev.ready l.ser.iReady l.ser.oValid ≠ .idle) :
    Working clkDiv2 (l.cycle clkDiv2 ev) frames t
      (ph.next t o full (l.word ev).tValid ev.ready l.ser.iReady l.ser.oValid)
      (o + (takesOver full (ev.ready && ph.passes) l.ser.oValid).toNat)
      (fills full (ev.ready && ph.passes) l.ser.oValid)
      (pos.next t.job clkDiv2 l.core.tdiValid (l.core.tdoReady ev.ready)) := by
  obtain ⟨x, y, hist, hj⟩ := h.shadow
  obtain ⟨⟨x', y', hist', hj'⟩, hclosed⟩ := h.shadow_next hW hD ev
  have hst : l.core.state ≠ .idle := hj.core.state_ne_idle h.work
  obtain ⟨hiCnt, hoCnt⟩ := hj'.core.counters hne
  refine ⟨⟨x', y', hist', hj'⟩, hne, h.complete, ?_, ?_, hclosed, h.src_next hW hne⟩
  · apply started_cycle hst hiCnt hcnt.iCnt
    rw [h.started]
    exact Phase.started_next hW h.complete hj.core h.work
  · apply done_cycle hst hoCnt hcnt.oCnt
    rw [h.done]
    cases takesOver full (ev.ready && ph.passes) l.ser.oValid <;> simp

theorem Working.finish (hW : 0 < W) (hD : 0 < clkDiv2)
    (h : Working clkDiv2 l frames t ph o full pos) (hcnt : Counted l)
    (hidle : ph.next t o full (l.word ev).tValid ev.ready l.ser.iReady l.ser.oValid = .idle) :
    Resting (l.cycle clkDiv2 ev) frames := by
  obtain ⟨x, y, hist, hj⟩ := h.shadow
  obtain ⟨⟨x', y', hist', hj'⟩, -⟩ := h.shadow_next hW hD ev
  rw [hidle] at hj'
  rcases Phase.next_idle h.work hidle with ⟨rfl, hready⟩ | ⟨-, -, hone⟩
  · obtain ⟨ho, -⟩ := hj.core.final_eq
    have hvalid : l.ser.oValid = false := hj.offers.oValid_eq_false ho.ge
    have hst : l.core.state ≠ .idle := hj.core.state_ne_idle h.work
    -- the shadow has the state of the core; it differs in `tdo` alone
    have hnot : l.core.state ≠ .getTms := by
      have hcore := hj.core
      generalize hr : ({ l.core with tdo := x } : Reg W) = r at hcore
      have hsame : l.core.state = r.state := by rw [← hr]
      rw [hsame]
      cases hcore with
      | final _ hst => rcases hst with rfl | rfl <;> simp
    have hready' : l.core.sReady = false := h.closed rfl
    simp only [hvalid, takesOver, Bool.false_and, Bool.toNat_false, Nat.add_zero] at hj'
    have hrests := (hj'.rests ho).1
    refine ⟨⟨hrests.core, hrests.tdiValid, hrests.tdoValid, hrests.running, hrests.ser, hrests.tck,
      hrests.lastBit, hrests.oValid, hrests.iReady⟩, ?_, ?_⟩
    -- the counters stand still in the cycle that ends the request
    · have hi : (l.cycle clkDiv2 ev).core.iCnt = _ := Reg.next_iCnt l.core _ _ _
      have hc : (l.cycle clkDiv2 ev).core.oCnt = _ := Reg.next_oCnt l.core _ _ _
      rw [if_neg hst] at hi hc
      have hstarts : l.core.starts (l.mAxisTmsTdi ev) = false := by simp [Reg.starts, hnot]
      have htakes : l.core.takes ev.ready l.ser = false := by simp [Reg.takes, hvalid]
      rw [hstarts, Bool.toNat_false, BitVec.add_zero, hcnt.iCnt] at hi
      rw [htakes, if_neg (by simp), hcnt.oCnt] at hc
      rw [started_cycle hst hi hcnt.iCnt (Or.inl rfl), done_cycle hst hc hcnt.oCnt (Or.inl rfl),
        h.started, h.done, ho]
      rfl
    · rw [cycle_src, hready', h.src]
      simp [Phase.accepted]
  · have hpos := (Task.lt_wordCount hW (n := t.total) (c := 0)).mpr (by
      rw [Nat.zero_mul]
      exact t.total_pos)
    have hc := h.complete
    unfold Task.Complete at hc
    omega

theorem Resting.wait (h : Resting l frames)
    (hx : (l.core.sReady && (l.mAxisTmsTdi ev).tValid) = false) :
    Resting (l.cycle clkDiv2 ev) frames := by
  refine ⟨(h.rests.next hx ev.ready ev.tdo).1, ?_, ?_⟩
  · simp [cycle, h.rests.core]
  · rw [← h.src]
    simp [cycle, hx]

theorem Resting.header {f : List (BitVec W)} (hW : 0 < W) (h : Resting l (f :: frames))
    (hf : WellFormed f) (hx : (l.core.sReady && (l.mAxisTmsTdi ev).tValid) = true) :
    ∃ t, Working clkDiv2 (l.cycle clkDiv2 ev) frames t (.getTms 0) 0 false (.idle 0 false) := by
  cases f with
  | nil => exact hf.elim
  | cons data payload =>
    let t : Task W := ⟨getLen data, payload, []⟩
    have hc : t.Complete := hf
    have hpos : 0 < payload.length := by
      have hcount := (Task.lt_wordCount hW (n := t.total) (c := 0)).mpr (by
        rw [Nat.zero_mul]
        exact t.total_pos)
      have hf : 2 * wordCount W t.total ≤ payload.length := hf
      omega
    have hne : payload.isEmpty = false := by
      cases payload with
      | nil => simp at hpos
      | cons => rfl
    have hsrc : l.src = (data, false) :: (beats payload ++ frames.flatMap beats) := by
      rw [h.src, List.flatMap_cons, beats_cons, hne, List.cons_append]
    have hm : l.mAxisTmsTdi ev = ⟨ev.valid, false, data⟩ := by simp [mAxisTmsTdi, hsrc]
    rw [Bool.and_eq_true] at hx
    have hstart : Joint t (fun _ _ _ => false) clkDiv2 (.getTms 0) 0 false (.idle 0 false)
        (l.cycle clkDiv2 ev).core (l.cycle clkDiv2 ev).ser t.hist :=
      h.rests.start hx.1 hx.2 (by rw [hm]) (by rw [hm]) hpos ev.ready ev.tdo
    refine ⟨t, ⟨_, _, _, hstart⟩, by simp, hc, ?_, ?_, by simp [Phase.accepts], ?_⟩
    · simp [cycle, h.rests.core, Phase.started]
    · simp [cycle, h.rests.core]
    · simp [cycle, hx.1, hx.2, hsrc, Phase.accepted, t]

/-- The link is between or within well-formed frames. -/
inductive Stage (clkDiv2 : ℕ) (l : Link W) : Prop
  | resting (frames : List (List (BitVec W))) (h : Resting l frames)
      (hwf : ∀ f ∈ frames, WellFormed f) : Stage clkDiv2 l
  | working (frames : List (List (BitVec W))) (t : Task W) (ph : Phase) (o : ℕ) (full : Bool)
      (pos : Pos) (h : Working clkDiv2 l frames t ph o full pos)
      (hwf : ∀ f ∈ frames, WellFormed f) : Stage clkDiv2 l

theorem Stage.tidy (h : Stage clkDiv2 l) : Tidy l := by
  cases h with
  | resting _ h => exact h.tidy
  | working _ _ _ _ _ _ h => exact h.tidy

theorem Stage.next (hW : 0 < W) (hD : 0 < clkDiv2) (h : Stage clkDiv2 l) (hcnt : Counted l)
    (ev : Ev) : Stage clkDiv2 (l.cycle clkDiv2 ev) := by
  cases h with
  | resting frames h hwf =>
    cases hx : (l.core.sReady && (l.mAxisTmsTdi ev).tValid) with
    | false => exact .resting frames (h.wait hx) hwf
    | true =>
      cases frames with
      | nil => simp [mAxisTmsTdi, h.src, Axis.init] at hx
      | cons f frames =>
        obtain ⟨t, ht⟩ := h.header hW (hwf f (by simp)) hx
        exact .working frames t _ _ _ _ ht fun f' hf' => hwf f' (by simp [hf'])
  | working frames t ph o full pos h hwf =>
    by_cases hidle : ph.next t o full (l.word ev).tValid ev.ready l.ser.iReady l.ser.oValid = .idle
    · exact .resting frames (h.finish hW hD hcnt hidle) hwf
    · exact .working frames t _ _ _ _ (h.next hW hD hcnt hidle) hwf

/-- The bound on the words outstanding and the two handshakes, in one state. -/
structure Sound (l : Link W) : Prop where
  done_le : l.done ≤ l.started
  started_le : l.started ≤ l.done + 3
  counted : Counted l
  same_iff : l.core.iCnt = l.core.oCnt ↔ l.started = l.done
  ready : ∀ rdy, l.ser.oValid = true → l.ser.state ≠ .wai → l.core.tdoReady rdy = true
  lossless : Lossless l

theorem Stage.sound (h : Stage clkDiv2 l) (hcnt : Counted l) (hless : Lossless l) : Sound l := by
  have hbound : l.done ≤ l.started ∧ l.started ≤ l.done + 3 := by
    cases h with
    | resting _ h =>
      rw [h.counted]
      omega
    | working _ _ _ _ _ _ h =>
      obtain ⟨x, y, hist, hj⟩ := h.shadow
      rw [h.started, h.done]
      exact hj.started_le
  refine ⟨hbound.1, hbound.2, hcnt, ?_, fun rdy hv hw => h.tidy.tdoReady hv hw rdy, hless⟩
  rw [hcnt.iCnt, hcnt.oCnt]
  exact ofNat_two_inj hbound.1 hbound.2

theorem Stage.idle (h : Stage clkDiv2 l) (hst : l.core.state = .idle) : l.ser.oValid = false := by
  cases h with
  | resting _ h => exact h.rests.oValid
  | working _ _ _ _ _ _ h =>
    obtain ⟨x, y, hist, hj⟩ := h.shadow
    exact absurd hst (hj.core.state_ne_idle h.work)

/-- With well-formed frames and any gaps and stalls the counters do not alias, and no pair and no
TDO word is lost or taken twice. -/
theorem no_word_dropped (hW : 0 < W) (hD : 0 < clkDiv2) (frames : List (List (BitVec W)))
    (hwf : ∀ f ∈ frames, WellFormed f) (evs : ℕ → Ev) (t : ℕ) :
    Sound (run clkDiv2 (frames.flatMap beats) evs t) := by
  have hrun : Stage clkDiv2 (run clkDiv2 (frames.flatMap beats) evs t) ∧
      Counted (run clkDiv2 (frames.flatMap beats) evs t) ∧
      Lossless (run clkDiv2 (frames.flatMap beats) evs t) := by
    induction t with
    | zero =>
      refine ⟨.resting frames ⟨?_, rfl, rfl⟩ hwf, ⟨rfl, rfl⟩, ⟨rfl, rfl⟩⟩
      constructor <;> rfl
    | succ t ih =>
      obtain ⟨hstage, hcnt, hless⟩ := ih
      rw [run, runAt_succ]
      exact ⟨hstage.next hW hD hcnt _, hcnt.next hstage.idle,
        ⟨hstage.tidy.pairs_next hless.pairs _, hstage.tidy.words_next hless.words _⟩⟩
  exact hrun.1.sound hrun.2.1 hrun.2.2

/-- Two words and a few bits, in octets. -/
theorem no_word_dropped_twelve_bits :
    Sound (run 1 ([[0x0b, 1, 2, 3, 4], [0x02, 5, 6]].flatMap beats : List (BitVec 8 × Bool))
      (fun t => ⟨true, t % 3 = 0, false⟩) 60) := by
  apply no_word_dropped (by decide) (by decide)
  decide

end Link

end XvcSupport.AxisToJtagCore
