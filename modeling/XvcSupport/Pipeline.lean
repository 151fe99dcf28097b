import XvcSupport.Phases

namespace XvcSupport.AxisToJtagCore

open AxisToJtag JtagSerDesCore

variable {W : ℕ} {t : Task W} {tap : Tap} {clkDiv2 : ℕ} {ph : Phase} {o : ℕ} {full : Bool}
  {pos : Pos} {r : Reg W} {s : JtagSerDesCore.Reg W} {h : List Edge}

def Phase.shifts : Phase → Bool
  | .shift _ => true
  | _ => false

/-- The flag `running`. -/
def Phase.runs : Phase → Bool
  | .idle => false
  | .getTms c => decide (0 < c)
  | _ => true

theorem CoreAt.tdiValid_eq (hr : CoreAt t tap ph o full r) : r.tdiValid = ph.shifts := by
  cases hr <;> rfl

theorem CoreAt.running_eq (hr : CoreAt t tap ph o full r) : r.running = ph.runs := by
  cases hr <;> first | rfl | assumption

theorem CoreAt.tValid_eq (hr : CoreAt t tap ph o full r) :
    r.mAxisTdo.tValid = (full && ph.passes) := by
  cases hr <;> simp [Reg.mAxisTdo, Phase.passes]

theorem CoreAt.tdoReady_eq (hr : CoreAt t tap ph o full r) (rdy : Bool) :
    r.tdoReady rdy = (!full || (rdy && ph.passes)) := by
  cases hr <;> simp [Reg.tdoReady, Phase.passes]

theorem CoreAt.mAxisTdo_eq (hr : CoreAt t tap ph o full r) (hf : full = true)
    (hp : ph.passes = true) (hd : ph ≠ .doomed) :
    r.mAxisTdo = ⟨true, decide (ph = .final), t.tdoWord tap (o - 1)⟩ := by
  subst hf
  cases hr with
  | getTms _ _ _ _ _ htdo => rw [(htdo rfl).2]; rfl
  | getTdi _ _ _ _ htdo => rw [(htdo rfl).2]; rfl
  | shift _ _ _ _ _ htdo => rw [(htdo rfl).2]; rfl
  | drain _ _ _ htdo => rw [(htdo rfl).2]; rfl
  | align => simp [Phase.passes] at hp
  | discard => simp [Phase.passes] at hp
  | final _ _ htdo => rw [htdo]; rfl
  | abort _ _ _ htdo => rw [(htdo rfl).2]; rfl
  | doomed => exact absurd rfl hd

/-- Only in the final phase all words have been taken over. -/
theorem CoreAt.lt_count (hW : 0 < W) (hr : CoreAt t tap ph o full r) (hf : full = true)
    (hp : ph.passes = true) (hd : ph ≠ .doomed) (hle : o ≤ ph.handed t) {valid : Bool}
    (hfine : ph.Fine t o full valid true) : ph ≠ .final → o < t.count := by
  subst hf
  intro hne
  cases hr with
  | @getTms c _ _ _ _ _ _ _ _ hc hl _ _ hend htdo =>
    have h1 := (htdo rfl).1
    simp only [Phase.handed] at hle
    by_cases hlen : t.payload.length = 2 * c + 1
    · have := hend hlen
      rw [t.count_of_end hW hc hlen]
      omega
    · have := (t.lt_count hW).mpr ⟨hc, (by omega : 2 * c + 2 ≤ t.payload.length)⟩
      exact lt_of_le_of_lt hle this
  | getTdi hc => exact lt_of_le_of_lt hle hc
  | shift hc => exact lt_of_le_of_lt hle hc
  | drain ho => exact ho
  | align => simp [Phase.passes] at hp
  | discard => simp [Phase.passes] at hp
  | final => exact absurd rfl hne
  | abort =>
    rcases hfine with ⟨-, h⟩ | ⟨h, -⟩
    · simp at h
    · omega
  | doomed => exact absurd rfl hd

theorem CoreAt.final_eq (hr : CoreAt t tap .final o full r) : o = t.count ∧ full = true := by
  cases hr
  exact ⟨rfl, rfl⟩

theorem CoreAt.count_pos (hW : 0 < W) (hr : CoreAt t tap ph o full r) (hrun : ph.runs = true) :
    0 < t.count := by
  cases hr with
  | idle => simp [Phase.runs] at hrun
  | @getTms c _ _ _ _ _ _ _ _ hc hl =>
    have h0 : 0 < c := by simpa [Phase.runs] using hrun
    exact t.count_pos hW (by omega)
  | getTdi hc => omega
  | shift hc => omega
  | drain ho => omega
  | align hpos => exact hpos
  | discard hpos => exact hpos
  | final hpos => exact hpos
  | abort hab => exact hab.1
  | abortWait hab => exact hab.1
  | doomed hab => exact hab.1

theorem CoreAt.accepted_next (hW : 0 < W) (hr : CoreAt t tap ph o full r) {m : Axis W}
    {rdy iReady oValid : Bool} (hne : ph ≠ .idle) (hm : Feeds t (ph.accepted t) m)
    (hfine : ph.Fine t o full m.tValid rdy)
    (hne' : ph.next t o full m.tValid rdy iReady oValid ≠ .idle) :
    (ph.next t o full m.tValid rdy iReady oValid).accepted t =
      ph.accepted t + (m.tValid && r.sReady).toNat := by
  -- nothing is taken once the frame has been absorbed
  have hdone : ph.accepted t = t.payload.length → m.tValid = false := by
    intro heq
    by_contra hcon
    have := (hm (by simpa using hcon)).1
    omega
  cases hr with
  | idle => exact absurd rfl hne
  | @getTms c _ _ _ _ _ _ _ _ hc hl hrun htot hend htdo =>
    cases hv : m.tValid with
    | false =>
      simp only [Phase.next, Bool.false_eq_true, if_false]
      split_ifs with hd
      · simp [Phase.accepted, t.count_of_end hW hc hd.1]
      · simp [Phase.accepted]
    | true =>
      simp only [Phase.next, hv, if_true] at hne' ⊢
      split_ifs at hne' ⊢ with hlen h0
      · exact absurd rfl hne'
      · simp [Phase.accepted, hlen]
      · simp [Phase.accepted]
  | getTdi => cases hv : m.tValid <;> simp [Phase.next, Phase.accepted]
  | @shift c _ _ _ _ _ _ _ hc =>
    simp only [Phase.next, Bool.and_false, Bool.toNat_false]
    split_ifs with hi hl
    · have := ((t.last_iff hW hc).mp hl).1
      simp only [Phase.accepted]
      omega
    · simp only [Phase.accepted]
      omega
    · rfl
  | drain =>
    simp only [Phase.next, Bool.and_false, Bool.toNat_false]
    split_ifs <;> simp [Phase.accepted]
  | @align a nBits tLast _ _ _ _ sReady _ hpos hlt hlast hseen ha hle hready htdo =>
    have hno : (m.tValid && sReady) = false := by
      cases hsr : sReady with
      | false => simp
      | true => simp [hdone (hready hsr)]
    simp only [Phase.next, hno, Bool.toNat_false]
    split_ifs <;> simp [Phase.accepted]
  | @discard a ready _ _ _ _ sReady _ hpos hseen ha hle hready htdo =>
    simp only [Phase.next]
    by_cases hend : a = t.payload.length
    · simp [hend, Phase.accepted, hdone hend]
    · rw [if_neg hend, ← hready hend, Bool.and_comm m.tValid]
      cases hacc : (sReady && m.tValid) with
      | false => simp [Phase.accepted]
      | true =>
        rw [if_pos rfl]
        split_ifs with hl
        · simp [Phase.accepted, hl]
        · simp [Phase.accepted]
  | final =>
    cases rdy with
    | false => simp [Phase.next, Phase.accepted, hdone rfl]
    | true => exact absurd rfl hne'
  | abort =>
    simp only [Phase.next, hdone rfl, Bool.false_and, Bool.toNat_false]
    split_ifs <;> simp [Phase.accepted]
  | abortWait =>
    simp only [Phase.next, hdone rfl, Bool.false_and, Bool.toNat_false]
    split_ifs <;> simp [Phase.accepted]
  | doomed =>
    have hv : m.tValid = false := hfine
    simp [Phase.next, Phase.accepted, hv]

/-- The core ends its work with the last word of the answer, or with the first TMS word if that
is the last word of the frame. -/
theorem Phase.next_idle {valid rdy iReady oValid : Bool} (hne : ph ≠ .idle)
    (h : ph.next t o full valid rdy iReady oValid = .idle) :
    (ph = .final ∧ rdy = true) ∨ (ph = .getTms 0 ∧ valid = true ∧ t.payload.length = 1) := by
  cases ph with
  | idle => exact absurd rfl hne
  | getTms c =>
    simp only [Phase.next] at h
    split_ifs at h with hv hl hc
    subst hc
    exact Or.inr ⟨rfl, hv, hl⟩
  | final =>
    simp only [Phase.next] at h
    split_ifs at h with hr
    exact Or.inl ⟨rfl, hr⟩
  | doomed => exact absurd h (by simp [Phase.next])
  | _ =>
    simp only [Phase.next] at h
    split_ifs at h

/-- The core in a phase and the serializer at a position, in agreement on the pairs and the TDO
words that have passed between them. -/
structure Joint (t : Task W) (tap : Tap) (clkDiv2 : ℕ) (ph : Phase) (o : ℕ) (full : Bool)
    (pos : Pos) (r : Reg W) (s : JtagSerDesCore.Reg W) (h : List Edge) : Prop where
  core : CoreAt t tap ph o full r
  ser : At t.job tap clkDiv2 pos s h
  given : pos.given = o
  taken : pos.taken = ph.handed t + pos.acks.toNat
  acks : pos.acks = true → ph.shifts = true
  clash : pos.oValid = true → pos.waits = false → full = false

namespace Joint

theorem offers (hj : Joint t tap clkDiv2 ph o full pos r s h) : Offers t tap (ph.handed t) o s := by
  intro hv
  have hpos : pos.oValid = true := by rw [← hj.ser.oValid_eq, hv]
  obtain ⟨hlt, hshow⟩ := hj.ser.shows hpos
  have hacks : pos.acks = false := by
    by_contra hcon
    rw [Pos.oValid_of_acks (by simpa using hcon)] at hpos
    exact absurd hpos (by simp)
  have htaken := hj.taken
  rw [hacks, Bool.toNat_false, Nat.add_zero] at htaken
  rw [hj.given] at hlt hshow
  exact ⟨by omega, t.shifted_eq hshow⟩

theorem le_handed (hj : Joint t tap clkDiv2 ph o full pos r s h) : o ≤ ph.handed t := by
  have h1 := pos.given_le_taken
  have h2 := hj.taken
  have h3 := hj.given
  cases hacks : pos.acks with
  | false =>
    rw [hacks, Bool.toNat_false] at h2
    omega
  | true =>
    -- a pair taken in passing leaves the one before it to be handed on
    cases pos with
    | low j f div pre ack =>
      simp only [hacks, Pos.given, Pos.taken, Bool.toNat_true] at h2 h3
      omega
    | _ => simp [Pos.acks] at hacks

theorem handed_le (hj : Joint t tap clkDiv2 ph o full pos r s h) : ph.handed t ≤ o + 2 := by
  have h1 := pos.taken_le
  have h2 := hj.taken
  have h3 := hj.given
  omega

theorem fed (hj : Joint t tap clkDiv2 ph o full pos r s h) (rdy tdo : Bool) :
    Fed t.job pos (r.serIn rdy tdo) := by
  intro hv htakes
  have hcore := hj.core
  have hsh : ph.shifts = true := by
    rw [← hcore.tdiValid_eq]
    exact hv
  have hacks : pos.acks = false := by
    by_contra hcon
    rw [(Pos.takes_of_acks (by simpa using hcon)).1] at htakes
    exact absurd htakes (by simp)
  have htaken := hj.taken
  rw [hacks, Bool.toNat_false, Nat.add_zero] at htaken
  cases hcore with
  | shift hc hbits =>
    simp only [Phase.handed] at htaken
    rw [htaken]
    exact ⟨rfl, hbits⟩
  | _ => simp [Phase.shifts] at hsh

/-- The serializer hands on a word exactly when the core takes it over. -/
theorem given_next (hj : Joint t tap clkDiv2 ph o full pos r s h) (valid rdy : Bool) :
    (pos.next t.job clkDiv2 valid (r.tdoReady rdy)).given =
      o + (takesOver full (rdy && ph.passes) s.oValid).toNat := by
  rw [hj.ser.given_next, hj.given, hj.core.tdoReady_eq, hj.ser.oValid_eq, takesOver]
  cases hov : pos.oValid with
  | false => simp
  | true =>
    cases hw : pos.waits with
    | true => simp
    | false => simp [hj.clash hov hw]

theorem clash_next (hj : Joint t tap clkDiv2 ph o full pos r s h) {valid rdy : Bool}
    (hv : (pos.next t.job clkDiv2 valid (r.tdoReady rdy)).oValid = true)
    (hw : (pos.next t.job clkDiv2 valid (r.tdoReady rdy)).waits = false) :
    fills full (rdy && ph.passes) s.oValid = false := by
  obtain ⟨hov, hready⟩ := Pos.oValid_next hv hw
  rw [hj.core.tdoReady_eq] at hready
  rw [hj.ser.oValid_eq, hov, fills, takesOver]
  revert hready
  cases full <;> cases rdy <;> cases ph.passes <;> simp

theorem taken_next (hW : 0 < W) (hj : Joint t tap clkDiv2 ph o full pos r s h) {m : Axis W}
    {rdy : Bool} (hne : ph ≠ .idle) :
    (pos.next t.job clkDiv2 r.tdiValid (r.tdoReady rdy)).taken =
      (ph.next t o full m.tValid rdy s.iReady s.oValid).handed t +
        (pos.next t.job clkDiv2 r.tdiValid (r.tdoReady rdy)).acks.toNat ∧
    ((pos.next t.job clkDiv2 r.tdiValid (r.tdoReady rdy)).acks = true →
      (ph.next t o full m.tValid rdy s.iReady s.oValid).shifts = true) := by
  have htaken := hj.taken
  have hacks := hj.acks
  rw [Pos.taken_next, Pos.acks_next, hj.core.tdiValid_eq, hj.ser.iReady_eq, Pos.iReady]
  cases hsh : ph.shifts with
  | false =>
    have hno : pos.acks = false := by
      by_contra hcon
      rw [hacks (by simpa using hcon)] at hsh
      exact absurd hsh (by simp)
    rw [hno, Bool.toNat_false, Nat.add_zero] at htaken
    rw [htaken]
    simp only [Bool.false_and, Bool.toNat_false, Nat.add_zero, Bool.false_eq_true,
      false_implies, and_true]
    have hcore := hj.core
    cases hcore with
    | idle => exact absurd rfl hne
    | @getTms c _ _ _ _ _ _ _ _ hc hl =>
      simp only [Phase.next]
      split_ifs with hv hlen h0 hd
      · simp [Phase.handed, t.count_of_end hW hc hlen]
      · simp [Phase.handed, t.count_of_end hW hc hlen]
      · rfl
      · simp [Phase.handed, t.count_of_end hW hc hd.1]
      · rfl
    | getTdi => simp only [Phase.next]; split_ifs <;> rfl
    | shift => simp [Phase.shifts] at hsh
    | drain => simp only [Phase.next]; split_ifs <;> rfl
    | align => simp only [Phase.next]; split_ifs <;> rfl
    | discard => simp only [Phase.next]; split_ifs <;> rfl
    | final => simp only [Phase.next]; split_ifs <;> rfl
    | abort => simp only [Phase.next]; split_ifs <;> rfl
    | abortWait => simp only [Phase.next]; split_ifs <;> rfl
    | doomed => rfl
  | true =>
    have hcore := hj.core
    cases hcore with
    | @shift c _ _ _ _ _ _ _ hc =>
      have hlast : t.Last c → t.count = c + 1 := fun hl => ((t.last_iff hW hc).mp hl).1.symm
      have hmoved : (if t.Last c then Phase.drain else Phase.getTms (c + 1)).handed t = c + 1 := by
        split_ifs with hl
        · exact hlast hl
        · rfl
      simp only [Phase.handed] at htaken
      cases ha : pos.acks with
      | true =>
        have htakes : pos.takes t.job = false := (Pos.takes_of_acks ha).1
        rw [ha, Bool.toNat_true] at htaken
        simp [Phase.next, htakes, hmoved, htaken]
      | false =>
        rw [ha, Bool.toNat_false, Nat.add_zero] at htaken
        cases hr : pos.rests with
        | true => simp [Phase.next, Pos.takes_of_rests hr, hmoved, htaken]
        | false => simp [Phase.next, Phase.handed, Phase.shifts, htaken]
    | _ => simp [Phase.shifts] at hsh

theorem next (hW : 0 < W) (hD : 0 < clkDiv2) (hj : Joint t tap clkDiv2 ph o full pos r s h)
    {m : Axis W} {rdy : Bool} (hne : ph ≠ .idle) (hm : Feeds t (ph.accepted t) m)
    (hfine : ph.Fine t o full m.tValid rdy) :
    Joint t tap clkDiv2 (ph.next t o full m.tValid rdy s.iReady s.oValid)
      (o + (takesOver full (rdy && ph.passes) s.oValid).toNat)
      (fills full (rdy && ph.passes) s.oValid)
      (pos.next t.job clkDiv2 r.tdiValid (r.tdoReady rdy)) (r.next m rdy s)
      (s.next clkDiv2 (r.serIn rdy (tap h s.pins.1 s.pins.2)))
      (s.clock (s.next clkDiv2 (r.serIn rdy (tap h s.pins.1 s.pins.2))) h) where
  core := hj.core.next hW hne hj.le_handed hj.handed_le hm hj.offers hfine
  ser := hj.ser.next hD (hj.fed rdy _) rfl
  given := hj.given_next _ _
  taken := (hj.taken_next hW hne).1
  acks := (hj.taken_next hW hne).2
  clash := hj.clash_next

end Joint

/-- The core and the serializer are idle, with nothing pending. -/
structure Rests (r : Reg W) (s : JtagSerDesCore.Reg W) : Prop where
  core : r.state = .idle
  tdiValid : r.tdiValid = false
  tdoValid : r.tdoValid = false
  running : r.running = false
  ser : s.state = .idle
  tck : s.tck = false
  lastBit : s.lastBit = false
  oValid : s.oValid = false
  iReady : s.iReady = true

theorem Rests.ser_next (hr : Rests r s) (rdy tdo : Bool) :
    s.next clkDiv2 (r.serIn rdy tdo) =
      ⟨s.cnt, s.div, s.tms, s.tdi, s.tdo, false, false, false, true, .idle⟩ := by
  simp [JtagSerDesCore.Reg.next, Reg.serIn, hr.tdiValid, hr.ser, hr.tck, hr.lastBit, hr.iReady]

theorem Rests.next (hr : Rests r s) {m : Axis W} (hm : (r.sReady && m.tValid) = false)
    (rdy tdo : Bool) :
    Rests (r.next m rdy s) (s.next clkDiv2 (r.serIn rdy tdo)) ∧
      (r.next m rdy s).sReady = true := by
  constructor
  · constructor <;>
      simp [hr.ser_next, hr.core, hr.tdiValid, hr.tdoValid, hr.running, hr.oValid, hm, Reg.next,
        Reg.fsm, Reg.output, Reg.mAxisTdo]
  · simp [hr.core, hr.tdoValid, hr.oValid, hm, Reg.next, Reg.fsm, Reg.output, Reg.mAxisTdo]

theorem Rests.start (hr : Rests r s) {m : Axis W} (hs : r.sReady = true) (hv : m.tValid = true)
    (hl : m.tLast = false) (hlen : AxisToJtagPkg.getLen m.tData = t.len)
    (hpos : 0 < t.payload.length) (rdy tdo : Bool) :
    Joint t tap clkDiv2 (.getTms 0) 0 false (.idle 0 false) (r.next m rdy s)
      (s.next clkDiv2 (r.serIn rdy tdo)) t.hist := by
  have hcore : r.next m rdy s =
      ⟨.getTms, r.tdi, r.tms, r.tdo, r.nBits, t.len, false, true, false, true, false, false,
        BitVec.ofNat 2 0, BitVec.ofNat 2 0, false, false⟩ := by
    rw [← hlen]
    simp [hr.core, hr.tdiValid, hr.tdoValid, hr.running, hs, hv, hl, hr.oValid, Reg.next, Reg.fsm,
      Reg.output, Reg.mAxisTdo]
  have hhist : t.hist = t.job.histOf 0 := by
    simp [Job.histOf, Job.histAt, edgesOf, Task.job]
  rw [hr.ser_next, hcore, hhist]
  exact
    { core := .getTms (by rw [Nat.zero_mul]; exact t.total_pos) (by omega) rfl (by simp)
        (fun _ => Or.inr rfl) (fun hf => absurd hf (by simp))
      ser := .idle _ _ _ _ _ (by simp)
      given := rfl
      taken := rfl
      acks := by simp [Pos.acks]
      clash := by simp }

theorem Joint.rests (hj : Joint t tap clkDiv2 .idle o full pos r s h) (ho : o = t.count) :
    Rests r s ∧ h = t.job.histOf t.count := by
  have hcore := hj.core
  have hser := hj.ser
  have hacks : pos.acks = false := by
    by_contra hcon
    have := hj.acks (by simpa using hcon)
    simp [Phase.shifts] at this
  have htaken : pos.taken = o := by
    rw [hj.taken, hacks, ho]
    rfl
  have hgiven := hj.given
  cases hcore with
  | idle =>
    cases hser with
    | @idle j out _ _ _ _ _ hword =>
      have hout : out = false := by
        by_contra hcon
        have hout : out = true := by simpa using hcon
        have := (hword hout).1
        simp only [hout, Pos.taken, Pos.given, Bool.toNat_true] at htaken hgiven
        omega
      simp only [Pos.taken] at htaken
      subst htaken ho hout
      exact ⟨by constructor <;> rfl, rfl⟩
    | low => simp only [Pos.taken, Pos.given] at htaken hgiven; omega
    | high => simp only [Pos.taken, Pos.given] at htaken hgiven; omega
    | tail => simp only [Pos.taken, Pos.given] at htaken hgiven; omega
    | waiMore => simp only [Pos.taken, Pos.given] at htaken hgiven; omega
    | waiEnd => simp only [Pos.taken, Pos.given] at htaken hgiven; omega

end XvcSupport.AxisToJtagCore
