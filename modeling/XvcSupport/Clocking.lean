import XvcSupport.Jtag2BSCAN

namespace XvcSupport.Jtag2BSCAN

open JtagTapIR (Generics RegN RegP)
open JtagTapFsm (TapState)

variable {L : ℕ} (g : Generics L)

/-- What the outputs depend on would be the same if it were registered once more. -/
structure Settled (s : St L) : Prop where
  selUSER : s.selUSERin g = s.r.selUSER
  drckSel : s.r.drckSel = ((s.captureDR || s.shiftDR) && s.r.selUSER)
  updateDR : s.r.updateDR = s.updateDR

theorem settled_init : Settled g (.init g) := by
  have hout := JtagTapFsm.encode_outputs .testLogicReset
  rw [← init_fsm g] at hout
  obtain ⟨htlr, -, -, -, hcapture, hshift, hupdate⟩ := hout
  constructor
  · have ht : (St.init g).testLogicReset = true := htlr
    simp only [St.selUSERin, ht]
    rfl
  · have hc : (St.init g).captureDR = false := hcapture
    have hs : (St.init g).shiftDR = false := hshift
    rw [hc, hs]
    rfl
  · exact hupdate.symm

theorem rnNext_idem (rn : RegN L) (rp : RegP L) (testLogicReset updateIR : Bool) :
    (rn.next g rp testLogicReset updateIR).next g rp testLogicReset updateIR =
      rn.next g rp testLogicReset updateIR := by
  cases testLogicReset <;> cases updateIR <;> rfl

variable {g} {s : St L} {e : Edge}

theorem edge_falling (he : e.rising = false) :
    s.edge g e = { s with rn := s.rnin g, r := s.rin g e.tdo } := by
  simp [St.edge, he]

theorem edge_rising (he : e.rising = true) :
    s.edge g e = { s with fsm := s.fsm.next e.tms, rp := s.rpin g e.tdi } := by
  simp [St.edge, he]

theorem selUSERTap_falling (he : e.rising = false) :
    (s.edge g e).selUSERTap g = s.selUSERTap g := by
  rw [edge_falling he]
  exact congrArg RegN.selUser (rnNext_idem g s.rn s.rp s.testLogicReset s.updateIR)

theorem settled_falling (he : e.rising = false) : Settled g (s.edge g e) := by
  have hrn : (s.edge g e).selUSERTap g = s.selUSERTap g := selUSERTap_falling he
  have htlr : (s.edge g e).testLogicReset = s.testLogicReset := by rw [edge_falling he]; rfl
  have hupd : (s.edge g e).updateIR = s.updateIR := by rw [edge_falling he]; rfl
  have hsel : (s.edge g e).r.selUSER = s.selUSERin g := by rw [edge_falling he]; rfl
  constructor
  · rw [hsel]
    unfold St.selUSERin
    rw [hrn, htlr, hupd, hsel]
    unfold St.selUSERin
    split_ifs <;> rfl
  · rw [hsel, edge_falling he]
    rfl
  · rw [edge_falling he]
    rfl

theorem Settled.selUSER_of_reset (h : Settled g s) (ht : s.testLogicReset = true) :
    s.r.selUSER = false := by
  rw [← h.selUSER]
  simp [St.selUSERin, ht]

/-- From a capture or shift state Test-Logic-Reset is two edges or more away, and Update-DR
lasts for one cycle. -/
theorem rising_states {t : TapState} (hs : s.fsm = t.encode) (he : e.rising = true) :
    ((s.captureDR || s.shiftDR) = true → (s.edge g e).testLogicReset = false) ∧
    (s.updateDR = true → (s.edge g e).updateDR = false) := by
  unfold St.captureDR St.shiftDR St.updateDR St.testLogicReset
  rw [edge_fsm, if_pos he, hs, JtagTapFsm.encode_next]
  cases t with
  | testLogicReset => cases e.tms <;> decide
  | runTestIdle => cases e.tms <;> decide
  | scan reg sub => cases reg <;> cases sub <;> cases e.tms <;> decide

theorem drck_rising {t : TapState} (hs : s.fsm = t.encode) (h : Settled g s)
    (he : e.rising = true) :
    (s.edge g e).drck true =
      if (s.edge g e).testLogicReset then false
      else (s.rin g e.tdo).drckSel || (!(s.rin g e.tdo).drckSel && (s.rin g e.tdo).selUSER) := by
  have hr : (s.edge g e).r = s.r := by rw [edge_rising he]
  have hsel : (s.rin g e.tdo).selUSER = s.r.selUSER := h.selUSER
  have hdrck : (s.rin g e.tdo).drckSel = s.r.drckSel := by
    rw [h.drckSel, ← h.selUSER]
    rfl
  have hstate := (rising_states (g := g) hs he).1
  unfold St.drck St.sel
  rw [hr, hsel, hdrck]
  cases hd : s.r.drckSel with
  | false => cases (s.edge g e).testLogicReset <;> simp
  | true =>
    have hcs : (s.captureDR || s.shiftDR) = true := by
      have := h.drckSel
      rw [hd] at this
      exact (Bool.and_eq_true_iff.mp this.symm).1
    simp [hstate hcs]

theorem update_rising {t : TapState} (hs : s.fsm = t.encode) (h : Settled g s)
    (he : e.rising = true) : ((s.edge g e).update && (s.edge g e).updateSel) = false := by
  have hr : (s.edge g e).update = s.updateDR := by
    rw [edge_rising he]
    exact h.updateDR
  rw [hr]
  cases hu : s.updateDR with
  | false => rfl
  | true => simpa [St.updateSel] using (rising_states (g := g) hs he).2 hu

/-- `SEL` changes at a rising edge only where the TAP enters Test-Logic-Reset. -/
theorem sel_rising (h : Settled g s) (he : e.rising = true) :
    (s.edge g e).sel = if (s.edge g e).testLogicReset then false else s.sel := by
  have hr : (s.edge g e).r = s.r := by rw [edge_rising he]
  unfold St.sel
  rw [hr]
  cases hn : (s.edge g e).testLogicReset with
  | true => simp
  | false =>
    cases ht : s.testLogicReset with
    | true => simp [h.selUSER_of_reset ht]
    | false => simp

/-- The registered outputs after an edge, where the registers of the TAP were settled before a
rising one; `SEL` may be left as it is. -/
theorem outputs_pulse {c : CeSt L} {t : TapState} (hs : c.fsm = t.encode)
    (h : e.rising = true → Settled g c.toSt) :
    (c.next g e.pulse).drckReg = some ((c.toSt.edge g e).drck e.rising) ∧
    (c.next g e.pulse).updateReg =
      some ((c.toSt.edge g e).update && (c.toSt.edge g e).updateSel) ∧
    (c.next g e.pulse).selReg =
      if e.rising = true ∧ (c.toSt.edge g e).testLogicReset = false then c.selReg
      else some (c.toSt.edge g e).sel := by
  cases he : e.rising with
  | true =>
    have hset := h he
    -- before a rising edge the settled outputs show what the edge will register
    have hpred : c.fsm.nextStateTLR e.tms = (c.toSt.edge g e).testLogicReset := by
      rw [edge_rising he]
      rfl
    refine ⟨?_, ?_, ?_⟩
    · rw [drck_rising hs hset he]
      simp only [CeSt.next, Edge.pulse, he, hpred]
      cases (c.toSt.edge g e).testLogicReset <;> rfl
    · rw [update_rising hs hset he]
      simp [CeSt.next, Edge.pulse, he]
    · rw [sel_rising hset he]
      simp only [CeSt.next, Edge.pulse, he, hpred]
      cases (c.toSt.edge g e).testLogicReset <;> rfl
  | false =>
    have hset : Settled g (c.toSt.edge g e) := settled_falling he
    have hr : (c.toSt.edge g e).r = c.rin g e.tdo := by rw [edge_falling he]
    -- Test-Logic-Reset deselects the user register by itself
    have hsel : (c.toSt.edge g e).sel = (c.rin g e.tdo).selUSER := by
      unfold St.sel
      cases ht : (c.toSt.edge g e).testLogicReset with
      | true =>
        rw [← hr, hset.selUSER_of_reset ht]
        rfl
      | false => simp [hr]
    refine ⟨?_, ?_, ?_⟩
    · unfold St.drck
      rw [hsel, hr]
      simp [CeSt.next, Edge.pulse, he]
    · have hupd : (c.toSt.edge g e).updateSel = (c.toSt.edge g e).update := hset.updateDR.symm
      rw [hupd, Bool.and_self]
      unfold St.update
      rw [hr]
      simp [CeSt.next, Edge.pulse, he]
    · rw [hsel]
      simp [CeSt.next, Edge.pulse, he]

/-- Edges of TCK go up and down in turn. -/
def Alternating (es : List Edge) : Prop := es.IsChain fun a b => a.rising ≠ b.rising

instance (es : List Edge) : Decidable (Alternating es) :=
  inferInstanceAs (Decidable (es.IsChain _))

/-- What the registers of the enabled variant start from. -/
inductive Start
  | initial
  | reset
deriving DecidableEq, Repr

variable (g) in
def Start.st : Start → CeSt L
  | .initial => .init g
  | .reset => .afterRst g

@[simp] theorem Start.toSt_st (start : Start) : (start.st g).toSt = .init g := by
  cases start <;> rfl

/-- Nothing has set `SEL` yet: there was no reset and no edge, or only a rising edge that left
the TAP for Run-Test/Idle. -/
def selUnset (start : Start) (es : List Edge) : Bool :=
  start = .initial &&
    match es with
    | [] => true
    | [e] => e.rising && !e.tms
    | _ => false

theorem alternating_append {es : List Edge} (h : Alternating (es ++ [e])) :
    Alternating es ∧ ∀ x ∈ es.getLast?, x.rising ≠ e.rising := by
  obtain ⟨h1, -, h2⟩ := List.isChain_append.mp h
  exact ⟨h1, fun x hx => h2 x hx e (by simp)⟩

/-- The registers have settled before every rising edge. -/
theorem settled_after {es : List Edge} (h : Alternating (es ++ [e])) (he : e.rising = true) :
    Settled g (after g es) := by
  rcases List.eq_nil_or_concat es with rfl | ⟨es, x, rfl⟩
  · exact settled_init g
  · have hx := (alternating_append h).2 x (by simp)
    rw [he] at hx
    rw [List.concat_eq_append]
    unfold after
    rw [List.foldl_append]
    exact settled_falling (by simpa using hx)

theorem reset_after_one : (after g [e]).testLogicReset = (!e.rising || e.tms) := by
  unfold St.testLogicReset
  rw [after_fsm]
  cases hr : e.rising <;> cases ht : e.tms <;> simp [tapState, hr, ht] <;> decide

theorem selUnset_append {start : Start} {es : List Edge} (h : Alternating (es ++ [e])) :
    selUnset start (es ++ [e]) =
      if e.rising = true ∧ (after g (es ++ [e])).testLogicReset = false then selUnset start es
      else false := by
  rcases es with - | ⟨x, - | ⟨y, es⟩⟩
  · cases hr : e.rising <;> cases ht : e.tms <;>
      simp [selUnset, reset_after_one, hr, ht]
  · have hx := (alternating_append h).2 x (by simp)
    cases hr : e.rising with
    | false => simp [selUnset]
    | true =>
      rw [hr] at hx
      have hx : x.rising = false := by simpa using hx
      simp [selUnset, hx]
  · simp [selUnset]

theorem selReg_eq {start : Start} {cs : List ClkCycle} {es : List Edge} (h : Pulses cs es)
    (halt : Alternating es) :
    (cs.foldl (CeSt.next g) (start.st g)).selReg =
      if selUnset start es then none else some (after g es).sel := by
  induction h with
  | nil => cases start <;> rfl
  | idle d _ hd ih => simpa [hd] using ih halt
  | @edge cs es e h ih =>
    have hto := toSt_eq g h (start.st g) (by simp)
    have hsnoc : after g (es ++ [e]) = (after g es).edge g e := by simp [after]
    have hset : e.rising = true → Settled g (after g es) := settled_after halt
    have hstep := (outputs_pulse (c := cs.foldl (CeSt.next g) (start.st g)) (e := e)
      (by rw [hto]; exact after_fsm g es) (by rw [hto]; exact hset)).2.2
    rw [List.foldl_append, List.foldl_cons, List.foldl_nil, hstep, hto,
      selUnset_append (g := g) halt, ih (alternating_append halt).1, hsnoc]
    by_cases hc : e.rising = true ∧ ((after g es).edge g e).testLogicReset = false
    · rw [if_pos hc, if_pos hc, sel_rising (hset hc.1) hc.1, hc.2]
      simp
    · rw [if_neg hc, if_neg hc]
      simp

theorem registered_eq (start : Start) {cs : List ClkCycle} {es : List Edge} (h : Pulses cs es)
    (halt : Alternating es) : ∀ e ∈ es.getLast?,
      (cs.foldl (CeSt.next g) (start.st g)).drckReg = some ((after g es).drck e.rising) ∧
      (cs.foldl (CeSt.next g) (start.st g)).updateReg =
        some ((after g es).update && (after g es).updateSel) := by
  induction h with
  | nil => simp
  | idle d _ hd ih => simpa [hd] using ih halt
  | @edge cs es e h ih =>
    intro x hx
    obtain rfl : e = x := by simpa using hx
    have hto := toSt_eq g h (start.st g) (by simp)
    have hsnoc : after g (es ++ [e]) = (after g es).edge g e := by simp [after]
    have hstep := outputs_pulse (c := cs.foldl (CeSt.next g) (start.st g)) (e := e)
      (by rw [hto]; exact after_fsm g es) (by rw [hto]; exact settled_after halt)
    rw [List.foldl_append, List.foldl_cons, List.foldl_nil, hsnoc]
    rw [hto] at hstep
    exact ⟨hstep.1, hstep.2.1⟩

/-- Both variants of the bridge run on the same alternating edges, the enabled one with any
idle cycles between them. After every edge they have the same state of the TAP, the same
registers and the same outputs, and `UPDATE` of the enabled variant is `UPDATE` and `UPDATE_SEL`
of the clocked one; an enabled variant that was not reset has no `SEL` after a first edge that
leaves Test-Logic-Reset. -/
theorem variants_agree (g : Generics L) (start : Start) {cs : List ClkCycle} {es : List Edge}
    {e : Edge} (h : Pulses cs (es ++ [e])) (halt : Alternating (es ++ [e])) :
    let clocked := after g (es ++ [e])
    let enabled := cs.foldl (CeSt.next g) (start.st g)
    enabled.fsm = clocked.fsm ∧ enabled.rn = clocked.rn ∧ enabled.rp = clocked.rp ∧
    enabled.r = clocked.r ∧
    enabled.capture = clocked.capture ∧ enabled.shift = clocked.shift ∧
    enabled.reset = clocked.reset ∧ enabled.jtdo = clocked.jtdo ∧
    enabled.drckReg = some (clocked.drck e.rising) ∧
    enabled.updateReg = some (clocked.update && clocked.updateSel) ∧
    enabled.selReg = if selUnset start (es ++ [e]) then none else some clocked.sel := by
  intro clocked enabled
  have hto : enabled.toSt = clocked := toSt_eq g h (start.st g) (by simp)
  have hreg := registered_eq (g := g) start h halt e (by simp)
  have hsel : enabled.selReg = _ := selReg_eq h halt
  refine ⟨?_, ?_, ?_, ?_, ?_, ?_, ?_, ?_, hreg.1, hreg.2, hsel⟩ <;> rw [hto]

theorem variants_agree_idle_cycle :
    let rise : Edge := ⟨true, false, true, false⟩
    let fall : Edge := ⟨false, true, true, false⟩
    let enabled := [rise.pulse, ⟨false, false, false, true, false, false, false⟩, fall.pulse].foldl
      (CeSt.next .default) (Start.st .default .reset)
    enabled.drckReg = some false ∧ enabled.selReg = some false := by
  intro rise fall
  have hp : Pulses [rise.pulse, ⟨false, false, false, true, false, false, false⟩, fall.pulse]
      ([rise] ++ [fall]) :=
    .edge fall (.idle _ (.edge rise .nil) ⟨rfl, rfl, rfl⟩)
  have h := variants_agree .default .reset hp (by decide)
  exact ⟨h.2.2.2.2.2.2.2.2.1.trans (by decide), h.2.2.2.2.2.2.2.2.2.2.trans (by decide)⟩

/-- An enabled variant that was not reset has no `SEL` where the clocked one has. -/
theorem enabled_sel_unset :
    let rise : Edge := ⟨true, false, true, false⟩
    Pulses [rise.pulse] [rise] ∧ Alternating [rise] ∧
    ([rise.pulse].foldl (CeSt.next .default) (Start.st .default .initial)).selReg = none ∧
    (after .default [rise]).sel = false :=
  ⟨.edge _ .nil, by decide, by decide, by decide⟩

end XvcSupport.Jtag2BSCAN
