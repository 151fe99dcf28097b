import XvcSupport.ReplayBounds
import XvcSupport.Refinement

namespace XvcSupport.AxisToJtag

open AxisToJtagPkg AxisToJtagCore JtagSerDesCore

variable {g : Generics} {clkDiv2 : ℕ} {tap : Tap} {s : Dev g} {ev : Bool × Bool}

/-- The registers of the entity and its memory. -/
structure Entity (g : Generics) where
  r : Reg g.W
  bufMem : ℕ → BitVec g.W
  memOut : BitVec g.W
  streamBuf : Axis g.W
  core : AxisToJtagCore.Reg g.W
  ser : JtagSerDesCore.Reg g.W

def Dev.entity (s : Dev g) : Entity g := ⟨s.r, s.bufMem, s.memOut, s.streamBuf, s.core, s.ser⟩

namespace Entity

/-- `axisRst`, which leaves the memory alone. -/
def reset (s : Entity g) : Entity g where
  r := Reg.init g.W
  bufMem := s.bufMem
  memOut := s.memOut
  streamBuf := Axis.init g.W
  core := AxisToJtagCore.Reg.init g.W
  ser := JtagSerDesCore.Reg.init g.W

/-- The entity beside a master that has the word `m` on its lines. -/
def beside (s : Entity g) (m : Axis g.W) : Dev g where
  r := s.r
  bufMem := s.bufMem
  memOut := s.memOut
  streamBuf := s.streamBuf
  core := s.core
  ser := s.ser
  src := [(m.tData, m.tLast)]
  offer := m.tValid
  out := []
  hist := []

/-- `sAxisReq.tReady`. -/
def sAxisReq (s : Entity g) : Bool := if s.r.passTdi then s.core.sReady else s.r.ackInput

/-- One edge of the clock; `tdo` is what the pin shows. -/
def clock (clkDiv2 : ℕ) (s : Entity g) (m : Axis g.W) (tReady tdo : Bool) : Entity g :=
  ((s.beside m).cycle clkDiv2 (fun _ _ _ => tdo) (false, tReady)).entity

end Entity

/-- The same word, or none. -/
def Axis.Same {W : ℕ} (m m' : Axis W) : Prop :=
  m.tValid = m'.tValid ∧ (m.tValid = true → m = m')

theorem Entity.beside_mAxisReq (e : Entity g) (m : Axis g.W) :
    (e.beside m).mAxisReq false = m := by
  simp [Dev.mAxisReq, beside]

theorem Dev.entity_cycle {m : Axis g.W} (hm : Axis.Same m (s.mAxisReq ev.1)) :
    (s.cycle clkDiv2 tap ev).entity =
      s.entity.clock clkDiv2 m ev.2 (tap s.hist s.ser.pins.1 s.ser.pins.2) := by
  have hb : (s.entity.beside m).mAxisReq false = m := s.entity.beside_mAxisReq m
  have hsame : s.r.next ((s.entity.beside m).comb false ev.2) s.memOut =
        s.r.next (s.comb ev.1 ev.2) s.memOut ∧
      s.core.next ((s.entity.beside m).mTdi false) (s.sTdo ev.2) s.ser =
        s.core.next (s.mTdi ev.1) (s.sTdo ev.2) s.ser := by
    cases hv : m.tValid with
    | true =>
      have hreq : s.mAxisReq ev.1 = m := (hm.2 hv).symm
      have hx : (s.entity.beside m).reqXfer false = s.reqXfer ev.1 := by
        rw [Dev.reqXfer, Dev.reqXfer, hb, hreq]
        rfl
      have hc : (s.entity.beside m).comb false ev.2 = s.comb ev.1 ev.2 := by
        simp only [Dev.comb, hb, hreq, hx]
        rfl
      have htdi : (s.entity.beside m).mTdi false = s.mTdi ev.1 := by
        rw [Dev.mTdi, Dev.mTdi, hb, hreq]
        rfl
      exact ⟨by rw [hc], by rw [htdi]⟩
    | false =>
      -- without a word only its absence counts
      have hreq : (s.mAxisReq ev.1).tValid = false := hm.1.symm.trans hv
      have hx : (s.entity.beside m).reqXfer false = false := by
        rw [Dev.reqXfer, hb, hv]
        rfl
      have hx' : s.reqXfer ev.1 = false := by
        rw [Dev.reqXfer, hreq]
        rfl
      constructor
      · cases hs : s.r.state with
        | idle => simp [Reg.next, hs, Reg.idle, Dev.comb, hb, hv, hreq]
        | _ =>
          simp only [Reg.next, hs, Reg.sendRep, Reg.waitStarted, Reg.waitHdrReady, Reg.waitStopped,
            Reg.replay, Dev.comb, hx, hx', Bool.false_and, Bool.and_false]
          rfl
      · apply AxisToJtagCore.Reg.next_of_no_word
        · rw [Dev.mTdi, hb, hv]
          simp
        · rw [Dev.mTdi, hreq]
          simp
  rw [Entity.clock, Dev.entity, Dev.entity, Entity.mk.injEq]
  exact ⟨hsame.1.symm, rfl, rfl, rfl, hsame.2.symm, rfl⟩

/-- The entity with one more frame to serve, behind those that the master has still to send. -/
def Dev.behind (s : Dev g) (f : List (BitVec g.W)) : Dev g := s.extend (beats f) s.offer

theorem Dev.behind_out (s : Dev g) (f : List (BitVec g.W)) : (s.behind f).out = s.out := rfl

section Behind

variable {fw fw0 : Fw g.W} {fs all : List (List (BitVec g.W))} {f payload : List (BitVec g.W)}
  {data : BitVec g.W}

theorem flatMap_snoc (fs : List (List (BitVec g.W))) (f : List (BitVec g.W)) :
    (fs ++ [f]).flatMap beats = fs.flatMap beats ++ beats f := by
  simp

theorem Quiet.behind {hist : List Edge} (h : Quiet s hist) : Quiet (s.behind f) hist :=
  ⟨h.core, h.tdiValid, h.tdoValid, h.running, h.ser, h.tck, h.lastBit, h.oValid, h.iReady, h.hist⟩

theorem Stores.behind (h : Stores s fw) : Stores (s.behind f) fw :=
  ⟨h.xid, h.memValid, h.widx, h.pos, h.le, h.mem⟩

theorem Executes.behind (h : Executes s fw data payload) :
    Executes (s.behind f) fw data payload :=
  ⟨h.exec, h.tLast, h.tData, h.ackInput, h.ridx, h.memValid, h.xid⟩

/-- The words that the master has still to send. -/
theorem Dev.behind_src {ws : List (BitVec g.W × Bool)} (h : s.src = ws ++ fs.flatMap beats) :
    (s.behind f).src = ws ++ (fs ++ [f]).flatMap beats := by
  rw [flatMap_snoc, ← List.append_assoc, ← h]
  rfl

theorem AtIdle.behind (h : AtIdle s fw fs) : AtIdle (s.behind f) fw (fs ++ [f]) :=
  ⟨h.state, h.reply, h.ackInput, h.passTdo, h.passTdi, h.ridx, h.quiet.behind, h.stores.behind,
    Dev.behind_src (h.src.trans (List.nil_append _).symm)⟩

theorem Due.behind {due : List (BitVec g.W × Bool)} (h : Due tap fw0 all s due fw fs)
    (hf : f ≠ []) : Due tap fw0 (all ++ [f]) (s.behind f) due fw (fs ++ [f]) := by
  obtain ⟨served, rfl, hsent, hafter⟩ := h.served
  refine ⟨⟨served, by rw [List.append_assoc], hsent, hafter⟩, ?_⟩
  intro f' hf'
  rcases List.mem_append.mp hf' with hf' | hf'
  · exact h.ne_nil f' hf'
  · rwa [List.mem_singleton.mp hf']

theorem Follows.behind {f' : List (BitVec g.W)} (h : Follows tap fw0 all fw f' fs) :
    Follows tap fw0 (all ++ [f]) fw f' (fs ++ [f]) := by
  obtain ⟨served, rfl, hafter⟩ := h
  exact ⟨served, by simp, hafter⟩

theorem DevAt.behind {n : ℕ} (h : DevAt clkDiv2 tap fw0 all n s) (hf : f ≠ []) :
    ∃ n', DevAt clkDiv2 tap fw0 (all ++ [f]) n' (s.behind f) := by
  cases h with
  | idle h hd => exact ⟨_, .idle h.behind (hd.behind hf)⟩
  | sendRep h hd =>
    refine ⟨_, .sendRep ⟨h.state, h.reply, h.passTdo, h.passTdi, h.ridx, h.quiet.behind,
      h.stores.behind, Dev.behind_src h.src, h.flow⟩ (hd.behind hf)⟩
  | start h hc hd =>
    refine ⟨_, .start ⟨h.toExecutes.behind, h.state, h.reply, h.passTdo, h.passTdi, h.widx,
      h.quiet.behind, Dev.behind_src h.src⟩ hc.behind (hd.behind hf)⟩
  | busy h hc hne hnone hsave hd =>
    refine ⟨_, .busy ⟨h.toExecutes.behind, h.state, h.passTdi, h.joint, h.work,
      Dev.behind_src h.src⟩ hc.behind hne hnone hsave (hd.behind hf)⟩
  | replay h hd =>
    refine ⟨_, .replay ⟨h.state, h.valid, h.reply, h.tLast, h.passTdo, h.passTdi, h.ridx, h.memOut,
      h.ackInput, h.open_, h.quiet.behind, h.stores.behind, h.memValid, Dev.behind_src h.src⟩
      (hd.behind hf)⟩
  | doomed h hc =>
    refine ⟨_, .doomed ⟨h.toExecutes.behind, h.state, h.passTdi, h.joint, h.work,
      Dev.behind_src h.src⟩ hc.behind⟩

end Behind

section Sent

variable {fw fw0 : Fw g.W} {fs all : List (List (BitVec g.W))} {payload : List (BitVec g.W)}
  {data : BitVec g.W} {ph : Phase} {o : ℕ} {full : Bool} {pos : Pos} {n : ℕ}

theorem Due.sent_le {due : List (BitVec g.W × Bool)} (hd : Due tap fw0 all s due fw fs) :
    s.sent <+: answers tap fw0 all := by
  obtain ⟨served, rfl, hsent, -⟩ := hd.served
  rw [answers_append, ← hsent, List.append_assoc]
  exact List.prefix_append _ _

theorem DevAt.sent_le (hT : AllTidy tap fw0 all) (h : DevAt clkDiv2 tap fw0 all n s) :
    s.sent <+: answers tap fw0 all := by
  have hs : s.Sound (false, false) := h.sound hT
  cases h with
  | idle h hd => exact hd.sent_le
  | sendRep h hd => exact hd.sent_le
  | start h hc hd => exact hd.sent_le
  | busy h hc hne hnone hsave hd => exact hd.sent_le
  | replay h hd => exact hd.sent_le
  | doomed h => exact absurd hs h.not_sound

theorem Due.all_sent {due : List (BitVec g.W × Bool)} (hd : Due tap fw0 all s due fw fs)
    (hsent : s.sent = answers tap fw0 all) : due = [] ∧ fs = [] ∧ fw = afterAll tap fw0 all := by
  obtain ⟨served, rfl, hdue, rfl⟩ := hd.served
  rw [answers_append, ← hdue, List.append_assoc] at hsent
  obtain ⟨rfl, hrest⟩ := List.append_eq_nil_iff.mp (List.self_eq_append_right.mp hsent)
  refine ⟨rfl, ?_⟩
  cases fs with
  | nil => exact ⟨rfl, by rw [List.append_nil]⟩
  | cons f fs =>
    rw [answers, List.append_eq_nil_iff, beats_eq_nil] at hrest
    exact absurd hrest.1 (serve_ne_nil tap _ (hd.ne_nil f (by simp)))

theorem CoreAt.emitted_lt {W : ℕ} {t : Task W} {r : AxisToJtagCore.Reg W} (hW : 0 < W)
    (hr : CoreAt t tap ph o full r) (hruns : ph.runs = true) (hne : ph ≠ .doomed)
    (hle : o ≤ ph.handed t) : o - full.toNat < t.count := by
  cases hr with
  | idle => cases hruns
  | @getTms c _ _ _ _ _ _ _ _ hc hl hrun htot hend =>
    simp only [Phase.handed] at hle
    have hpos : 0 < c := of_decide_eq_true hruns
    by_cases hodd : t.payload.length = 2 * c + 1
    · have hcount : c - 1 < t.count := by
        rw [Task.lt_count hW]
        exact ⟨lt_of_le_of_lt (Nat.mul_le_mul_right _ (Nat.sub_le c 1)) hc, by omega⟩
      have := hend hodd
      omega
    · have hcount : c < t.count := (Task.lt_count hW).mpr ⟨hc, by omega⟩
      omega
  | getTdi hc => simp only [Phase.handed] at hle; omega
  | shift hc => simp only [Phase.handed] at hle; omega
  | drain ho => omega
  | align hpos => simp only [Bool.toNat_true]; omega
  | discard hpos => simp only [Bool.toNat_true]; omega
  | final hpos => simp only [Bool.toNat_true]; omega
  | abort hab ho hall =>
    have hpos := hab.1
    by_cases hend : o = t.count
    · rw [hall hend, Bool.toNat_true]
      omega
    · omega
  | abortWait hab =>
    have hpos := hab.1
    simp only [Bool.toNat_false]
    omega
  | doomed => exact absurd rfl hne

/-- While the core is at work the last word of the reply is still to come. -/
theorem AtBusy.shiftDue_ne_nil (h : AtBusy clkDiv2 tap s fw fs data payload ph o full pos)
    (hne : ph ≠ .doomed) : shiftDue tap s fw data payload (o - full.toNat) ≠ [] := by
  rw [shiftDue]
  cases hp : s.r.passTdo with
  | false =>
    rw [if_neg Bool.false_ne_true, ne_eq, beats_eq_nil]
    exact serve_ne_nil tap fw (by simp)
  | true =>
    have hruns : ph.runs = true := by
      rcases h.state with ⟨-, -, hno, -⟩ | ⟨-, -, -, hruns⟩ | ⟨-, -, -, hruns⟩
      · rw [hno] at hp
        cases hp
      · exact hruns
      · exact hruns
    have hlt := CoreAt.emitted_lt g.W_pos h.joint.core hruns hne h.joint.le_handed
    rw [if_pos rfl, ne_eq, beats_eq_nil, List.drop_eq_nil_iff, shiftTdo_length]
    omega

theorem DevAt.all_sent (hT : AllTidy tap fw0 all) (h : DevAt clkDiv2 tap fw0 all n s)
    (hsent : s.sent = answers tap fw0 all) : s.hist = (afterAll tap fw0 all).hist := by
  have hs : s.Sound (false, false) := h.sound hT
  cases h with
  | idle h hd =>
    obtain ⟨-, -, rfl⟩ := hd.all_sent hsent
    exact h.quiet.hist
  | sendRep h hd =>
    obtain ⟨-, -, rfl⟩ := hd.all_sent hsent
    exact h.quiet.hist
  | start h hc hd =>
    have hdue := (hd.all_sent hsent).1
    exact absurd (beats_eq_nil.mp hdue) (serve_ne_nil tap _ (by simp))
  | busy h hc hne hnone hsave hd =>
    exact absurd (hd.all_sent hsent).1 (h.shiftDue_ne_nil hne)
  | replay h hd =>
    obtain ⟨-, -, rfl⟩ := hd.all_sent hsent
    exact h.quiet.hist
  | doomed h => exact absurd hs h.not_sound

end Sent

end XvcSupport.AxisToJtag
