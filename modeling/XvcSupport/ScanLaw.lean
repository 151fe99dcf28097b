import XvcSupport.Clocking

namespace XvcSupport.Jtag2BSCAN

open JtagTapIR (Generics RegN RegP regBypass)
open JtagTapFsm (TapState Scan scanned scanned_append inScan_iff inScan_of_next)
open ShiftRegister

variable {L : ℕ} (g : Generics L)

/-- The inputs and `JTDO` at a rising edge; `tdo` is what the user register sent at the falling
edge before. -/
structure Sample where
  tdi : Bool
  jtdo : Bool
  tdo : Bool
deriving DecidableEq, Repr

/-- The user's `TDO` at the last falling edge. -/
def userTdo (es : List Edge) : Bool := es.foldl (fun tdo e => if e.rising then tdo else e.tdo) false

def sample (past : List Edge) (e : Edge) : Sample where
  tdi := e.tdi
  jtdo := (after g past).jtdo
  tdo := userTdo past

/-- The samples at rising edges, with the state that the TAP was in. -/
def observeFrom (past : List Edge) : List Edge → List (TapState × Sample)
  | [] => []
  | e :: es =>
    (if e.rising then [(tapState past, sample g past e)] else []) ++ observeFrom (past ++ [e]) es

def observe (es : List Edge) : List (TapState × Sample) := observeFrom g [] es

theorem observeFrom_append (past es : List Edge) (e : Edge) :
    observeFrom g past (es ++ [e]) = observeFrom g past es ++
      if e.rising then [(tapState (past ++ es), sample g (past ++ es) e)] else [] := by
  induction es generalizing past with
  | nil => simp [observeFrom]
  | cons x es ih => simp [observeFrom, ih]

theorem observe_rising {es : List Edge} {e : Edge} (he : e.rising = true) :
    observe g (es ++ [e]) = observe g es ++ [(tapState es, sample g es e)] := by
  simp [observe, observeFrom_append, he]

theorem observe_falling {es : List Edge} {e : Edge} (he : e.rising = false) :
    observe g (es ++ [e]) = observe g es := by
  simp [observe, observeFrom_append, he]

theorem after_append (es : List Edge) (e : Edge) : after g (es ++ [e]) = (after g es).edge g e := by
  simp [after]

theorem tapState_rising {es : List Edge} {e : Edge} (he : e.rising = true) :
    tapState (es ++ [e]) = (tapState es).next e.tms := by
  simp [tapState, he]

theorem tapState_falling {es : List Edge} {e : Edge} (he : e.rising = false) :
    tapState (es ++ [e]) = tapState es := by
  simp [tapState, he]

def rpIn (rp : RegP L) (ir : BitVec L) (tdi : Bool) : TapState → RegP L
  | .testLogicReset => RegP.init L
  | .scan .ir .capture => { rp with shiftIr := g.irVal }
  | .scan .ir .shift => { rp with shiftIr := shiftLow rp.shiftIr (L - 1) tdi }
  | .scan .dr .capture => rp.captureDr g ir
  | .scan .dr .shift => { rp with shiftDr := shiftLow rp.shiftDr rp.drLst tdi }
  | _ => rp

def irIn (ir shiftIr : BitVec L) : TapState → BitVec L
  | .testLogicReset => g.regIdcode
  | .scan .ir .update => shiftIr
  | _ => ir

theorem rpin_eq {s : St L} {t : TapState} (hs : s.fsm = t.encode) (tdi : Bool) :
    s.rpin g tdi = rpIn g s.rp s.rn.ir tdi t := by
  obtain ⟨htlr, hcir, hsir, -, hcdr, hsdr, -⟩ := JtagTapFsm.encode_outputs t
  rw [← hs] at htlr hcir hsir hcdr hsdr
  have h1 : s.testLogicReset = _ := htlr
  have h2 : s.captureIR = _ := hcir
  have h3 : s.shiftIR = _ := hsir
  have h4 : s.captureDR = _ := hcdr
  have h5 : s.shiftDR = _ := hsdr
  rw [St.rpin, h1, h2, h3, h4, h5]
  cases t with
  | testLogicReset => simp [rpIn, RegP.next]
  | runTestIdle => simp [rpIn, RegP.next]
  | scan reg sub =>
    cases reg <;> cases sub <;> simp [rpIn, RegP.next, JtagTapIR.shiftIr_eq]

/-- The instruction changes in Test-Logic-Reset and in Update-IR only. -/
theorem rnin_ir {s : St L} {t : TapState} (hs : s.fsm = t.encode) :
    (s.rnin g).ir = irIn g s.rn.ir s.rp.shiftIr t := by
  obtain ⟨htlr, -, -, huir, -⟩ := JtagTapFsm.encode_outputs t
  rw [← hs] at htlr huir
  have h1 : s.testLogicReset = _ := htlr
  have h2 : s.updateIR = _ := huir
  rw [St.rnin, h1, h2]
  cases t with
  | testLogicReset => simp [irIn, RegN.next]
  | runTestIdle => simp [irIn, RegN.next]
  | scan reg sub => cases reg <;> cases sub <;> simp [irIn, RegN.next]

theorem rin_tdo_ir {s : St L} (hs : s.fsm = (TapState.scan .ir .shift).encode) (tdo : Bool) :
    (s.rin g tdo).tdo = s.rp.shiftIr.getLsbD 0 := by
  obtain ⟨-, -, hsir, -⟩ := JtagTapFsm.encode_outputs (.scan .ir .shift)
  rw [← hs] at hsir
  have h1 : s.shiftIR = true := hsir
  simp [St.rin, St.tapTdo, JtagTapIR.tdo, h1]

theorem rin_tdo_dr {s : St L} (hs : s.fsm = (TapState.scan .dr .shift).encode) (tdo : Bool) :
    (s.rin g tdo).tdo =
      if s.rn.ir ≠ regBypass L ∧ s.rn.ir = g.regUser then tdo
      else if s.rp.drDecoded then s.rp.shiftDr.getLsbD 0 else true := by
  have hir : (s.rnin g).ir = s.rn.ir := rnin_ir g hs
  obtain ⟨-, -, hsir, -, -, hsdr, -⟩ := JtagTapFsm.encode_outputs (.scan .dr .shift)
  rw [← hs] at hsir hsdr
  have h1 : s.shiftIR = false := hsir
  have h2 : s.shiftDR = true := hsdr
  have hsel : s.selUSERTap g =
      if (s.rnin g).ir = regBypass L then false else decide ((s.rnin g).ir = g.regUser) := rfl
  rw [hir] at hsel
  by_cases hb : s.rn.ir = regBypass L <;>
    simp [St.rin, St.tapTdo, JtagTapIR.tdo, h1, h2, hsel, hb]

/-- `JTDO` at a rising edge is what it became at the falling edge before. -/
theorem jtdo_rising {es : List Edge} {e : Edge} (halt : Alternating (es ++ [e]))
    (he : e.rising = true) {reg : Scan} (ht : tapState es = .scan reg .shift) :
    (after g es).jtdo = ((after g es).rin g (userTdo es)).tdo := by
  rcases List.eq_nil_or_concat es with rfl | ⟨past, x, rfl⟩
  · cases ht
  · have hx := (alternating_append halt).2 x (by simp)
    have hx : x.rising = false := by simpa [he] using hx
    have huser : userTdo (past ++ [x]) = x.tdo := by simp [userTdo, hx]
    rw [List.concat_eq_append, huser, after_append]
    have hsel := selUSERTap_falling (g := g) (s := after g past) hx
    unfold St.jtdo St.rin
    rw [hsel, edge_falling hx]
    rfl

variable {g}

theorem transfer_ir (hL : 0 < L) {es : List Edge} (halt : Alternating es)
    (h : (tapState es).inScan .ir = true) :
    Transfer L (bitsOf g.irVal) ((scanned .ir (observe g es)).map Sample.tdi)
      ((scanned .ir (observe g es)).map Sample.jtdo) (after g es).rp.shiftIr := by
  induction es using List.reverseRecOn with
  | nil => simp [tapState, TapState.inScan] at h
  | append_singleton es e ih =>
    have ih := ih (alternating_append halt).1
    have hfsm := after_fsm g es
    cases he : e.rising with
    | false =>
      rw [tapState_falling he] at h
      rw [observe_falling g he, after_append, edge_falling he]
      exact ih h
    | true =>
      rw [tapState_rising he] at h
      rw [observe_rising g he, scanned_append, after_append, edge_rising he]
      simp only [rpin_eq g hfsm]
      rcases inScan_of_next h with hcap | hin
      · rw [if_pos hcap, hcap]
        exact .load (.load _)
      · have ih := ih hin
        obtain ⟨sub, hsub, hselect, hcapture⟩ := inScan_iff.mp hin
        rw [hsub] at hfsm ⊢
        cases sub with
        | select => exact absurd rfl hselect
        | capture => exact absurd rfl hcapture
        | shift =>
          have hjtdo : (sample g es e).jtdo = (after g es).rp.shiftIr.getLsbD 0 := by
            rw [sample, jtdo_rising g halt he hsub, rin_tdo_ir g hfsm]
          rw [if_neg (by decide), if_pos rfl, List.map_append, List.map_append]
          simp only [List.map_cons, List.map_nil, hjtdo]
          exact ih.shift hL le_rfl e.tdi
        | exit1 => exact ih
        | pause => exact ih
        | exit2 => exact ih
        | update => exact ih

variable (g) in
/-- What an instruction captures, the least significant bit first; nothing for an instruction
that is not decoded. -/
def captured (ir : BitVec L) : Option (List Bool) :=
  if ir = g.regIdcode then some (bitsOf g.idcodeVal)
  else if ir = g.regUsercode then some (bitsOf g.usercodeVal)
  else if ir = regBypass L then some [false]
  else none

theorem captured_length {ir : BitVec L} {bits : List Bool} (h : captured g ir = some bits) :
    0 < bits.length ∧ bits.length ≤ 32 := by
  unfold captured at h
  split_ifs at h <;> obtain rfl := Option.some.inj h <;> simp

variable (g) in
/-- The samples of a DR scan for an instruction, and what the shift register has left. -/
def DrSeen (shiftDr : BitVec 32) (ir : BitVec L) (seen : List Sample) : Prop :=
  if ir ≠ regBypass L ∧ ir = g.regUser then seen.map Sample.jtdo = seen.map Sample.tdo
  else match captured g ir with
    | some bits =>
      Transfer bits.length bits (seen.map Sample.tdi) (seen.map Sample.jtdo) shiftDr
    | none => ∀ x ∈ seen, x.jtdo = true

variable (g) in
structure DrScan (rp : RegP L) (ir : BitVec L) (seen : List Sample) : Prop where
  decoded : rp.drDecoded = (captured g ir).isSome
  last : ∀ bits, captured g ir = some bits → rp.drLst = bits.length - 1
  seen : DrSeen g rp.shiftDr ir seen

theorem drScan_capture (rp : RegP L) (ir : BitVec L) : DrScan g (rp.captureDr g ir) ir [] := by
  have hload : ∀ bits, captured g ir = some bits →
      Window bits.length bits 0 (rp.captureDr g ir).shiftDr := by
    intro bits h
    unfold captured at h
    unfold RegP.captureDr
    split_ifs at h ⊢ with h1 h2 h3
    · obtain rfl := Option.some.inj h
      rw [bitsOf_length]
      exact .load _
    · obtain rfl := Option.some.inj h
      rw [bitsOf_length]
      exact .load _
    · obtain rfl := Option.some.inj h
      refine ⟨rfl, ?_⟩
      intro j hj
      obtain rfl : j = 0 := by simpa using hj
      simp
  constructor
  · unfold captured RegP.captureDr
    split_ifs <;> simp_all
  · intro bits h
    unfold captured at h
    unfold RegP.captureDr
    split_ifs at h ⊢ with h1 h2 h3 <;> obtain rfl := Option.some.inj h <;> simp
  · unfold DrSeen
    split_ifs
    · rfl
    · cases hc : captured g ir with
      | none => simp
      | some bits => exact .load (hload bits hc)

theorem drScan_shift {rp : RegP L} {ir : BitVec L} {seen : List Sample} (h : DrScan g rp ir seen)
    {x : Sample}
    (hx : x.jtdo = if ir ≠ regBypass L ∧ ir = g.regUser then x.tdo
      else if rp.drDecoded then rp.shiftDr.getLsbD 0 else true) :
    DrScan g { rp with shiftDr := shiftLow rp.shiftDr rp.drLst x.tdi } ir (seen ++ [x]) where
  decoded := h.decoded
  last := h.last
  seen := by
    have hdec := h.decoded
    have hlast := h.last
    have hseen := h.seen
    unfold DrSeen at hseen ⊢
    by_cases huser : ir ≠ regBypass L ∧ ir = g.regUser
    · rw [if_pos huser] at hseen hx ⊢
      simp [hseen, hx]
    · rw [if_neg huser] at hseen hx ⊢
      cases hc : captured g ir with
      | none =>
        rw [hc] at hseen hdec
        rw [hdec] at hx
        intro y hy
        rcases List.mem_append.mp hy with hy | hy
        · exact hseen y hy
        · obtain rfl := List.mem_singleton.mp hy
          exact hx
      | some bits =>
        rw [hc] at hseen hdec
        rw [hdec] at hx
        have hx : x.jtdo = rp.shiftDr.getLsbD 0 := hx
        obtain ⟨hpos, hle⟩ := captured_length hc
        have hshift := hseen.shift hpos hle x.tdi
        rw [← hlast bits hc, ← hx] at hshift
        simpa using hshift

theorem drScan {es : List Edge} (halt : Alternating es)
    (h : (tapState es).inScan .dr = true) :
    DrScan g (after g es).rp (after g es).rn.ir (scanned .dr (observe g es)) := by
  induction es using List.reverseRecOn with
  | nil => simp [tapState, TapState.inScan] at h
  | append_singleton es e ih =>
    have ih := ih (alternating_append halt).1
    have hfsm := after_fsm g es
    cases he : e.rising with
    | false =>
      rw [tapState_falling he] at h
      have hir : ((after g es).rnin g).ir = (after g es).rn.ir := by
        rw [rnin_ir g hfsm]
        obtain ⟨sub, hsub, -⟩ := inScan_iff.mp h
        rw [hsub]
        rfl
      rw [observe_falling g he, after_append, edge_falling he]
      simp only [hir]
      exact ih h
    | true =>
      rw [tapState_rising he] at h
      rw [observe_rising g he, scanned_append, after_append, edge_rising he]
      simp only [rpin_eq g hfsm]
      rcases inScan_of_next h with hcap | hin
      · rw [if_pos hcap, hcap]
        exact drScan_capture _ _
      · have ih := ih hin
        obtain ⟨sub, hsub, hselect, hcapture⟩ := inScan_iff.mp hin
        rw [hsub] at hfsm ⊢
        cases sub with
        | select => exact absurd rfl hselect
        | capture => exact absurd rfl hcapture
        | shift =>
          rw [if_neg (by decide), if_pos rfl]
          refine drScan_shift (x := sample g es e) ih ?_
          rw [← rin_tdo_dr g hfsm]
          exact jtdo_rising g halt he hsub
        | exit1 => exact ih
        | pause => exact ih
        | exit2 => exact ih
        | update => exact ih

variable (g) in
/-- What holds of the scans and of the instruction after some edges. -/
structure ScanLaw (es : List Edge) : Prop where
  irSamples : (tapState es).inScan .ir = true →
    (scanned .ir (observe g es)).map Sample.jtdo =
      (bitsOf g.irVal ++ (scanned .ir (observe g es)).map Sample.tdi).take
        (scanned .ir (observe g es)).length
  irLoaded : ∀ e, e.rising = false → tapState es = .scan .ir .update →
    bitsOf (after g (es ++ [e])).rn.ir =
      (bitsOf g.irVal ++ (scanned .ir (observe g es)).map Sample.tdi).drop
        (scanned .ir (observe g es)).length
  irReset : ∀ e, e.rising = false → tapState es = .testLogicReset →
    (after g (es ++ [e])).rn.ir = g.regIdcode
  irKept : ∀ e, (e.rising = true ∨
      tapState es ≠ .scan .ir .update ∧ tapState es ≠ .testLogicReset) →
    (after g (es ++ [e])).rn.ir = (after g es).rn.ir
  idcode : (tapState es).inScan .dr = true → (after g es).rn.ir = g.regIdcode →
    (scanned .dr (observe g es)).map Sample.jtdo =
      (bitsOf g.idcodeVal ++ (scanned .dr (observe g es)).map Sample.tdi).take
        (scanned .dr (observe g es)).length
  usercode : (tapState es).inScan .dr = true → (after g es).rn.ir = g.regUsercode →
    (scanned .dr (observe g es)).map Sample.jtdo =
      (bitsOf g.usercodeVal ++ (scanned .dr (observe g es)).map Sample.tdi).take
        (scanned .dr (observe g es)).length
  bypass : (tapState es).inScan .dr = true → (after g es).rn.ir = regBypass L →
    (scanned .dr (observe g es)).map Sample.jtdo =
      ([false] ++ (scanned .dr (observe g es)).map Sample.tdi).take
        (scanned .dr (observe g es)).length
  user : (tapState es).inScan .dr = true → (after g es).rn.ir = g.regUser →
    (scanned .dr (observe g es)).map Sample.jtdo = (scanned .dr (observe g es)).map Sample.tdo
  undecoded : (tapState es).inScan .dr = true →
    (after g es).rn.ir ∉ [g.regIdcode, g.regUsercode, g.regUser, regBypass L] →
    ∀ x ∈ scanned .dr (observe g es), x.jtdo = true

theorem dr_samples {es : List Edge} (halt : Alternating es) (h : (tapState es).inScan .dr = true)
    {bits : List Bool} (hcap : captured g (after g es).rn.ir = some bits)
    (huser : ¬((after g es).rn.ir ≠ regBypass L ∧ (after g es).rn.ir = g.regUser)) :
    (scanned .dr (observe g es)).map Sample.jtdo =
      (bits ++ (scanned .dr (observe g es)).map Sample.tdi).take
        (scanned .dr (observe g es)).length := by
  have hseen := (drScan (g := g) halt h).seen
  unfold DrSeen at hseen
  rw [if_neg huser, hcap] at hseen
  simpa using hseen.outs_eq

/-- In every IR scan `JTDO` sends `IR_VAL_G` and then the bits received, and the instruction
loaded in Update-IR is what is left of them; in every DR scan it sends what the instruction
captures and then the bits received, the user's bits for USER, and ones for an instruction that
is not decoded. Either variant of the bridge has these registers. -/
theorem scan_law (g : Generics L)
    (hcodes : [g.regIdcode, g.regUsercode, g.regUser, regBypass L].Nodup)
    {es : List Edge} (halt : Alternating es) :
    ScanLaw g es ∧ ∀ (start : Start) (cs : List ClkCycle), Pulses cs es →
      (cs.foldl (CeSt.next g) (start.st g)).toSt = after g es := by
  -- without IR bits the codes could not be different
  have hL : 0 < L := by
    rcases Nat.eq_zero_or_pos L with rfl | h
    · exact absurd (List.mem_cons.mpr (.inl (Subsingleton.elim _ _))) (List.nodup_cons.mp hcodes).1
    · exact h
  simp only [List.nodup_cons, List.mem_cons, List.not_mem_nil, or_false, not_or] at hcodes
  obtain ⟨⟨hiu, hid, hib⟩, ⟨hud, hub⟩, hdb, -⟩ := hcodes
  -- the IR changes with falling edges only
  have hir : ∀ e : Edge, e.rising = false →
      (after g (es ++ [e])).rn.ir =
        irIn g (after g es).rn.ir (after g es).rp.shiftIr (tapState es) := by
    intro e he
    rw [after_append, edge_falling he]
    exact rnin_ir g (after_fsm g es)
  refine ⟨?_, fun start cs h => toSt_eq g h (start.st g) (by simp)⟩
  constructor
  · intro h
    simpa using (transfer_ir (g := g) hL halt h).outs_eq
  · intro e he h
    have hin : (tapState es).inScan .ir = true := by
      rw [h]
      decide
    have hload := (transfer_ir (g := g) hL halt hin).window.bitsOf_eq
    rw [List.length_map] at hload
    rw [hir e he, h]
    exact hload
  · intro e he h
    rw [hir e he, h]
    rfl
  · intro e h
    cases he : e.rising with
    | true =>
      rw [after_append, edge_rising he]
    | false =>
      obtain ⟨h1, h2⟩ : tapState es ≠ .scan .ir .update ∧ tapState es ≠ .testLogicReset := by
        simpa [he] using h
      rw [hir e he]
      unfold irIn
      split <;> simp_all
  -- the DR captures the IDCODE, the USERCODE or the bypass bit, and is read from its register
  · intro h hi
    refine dr_samples halt h (by simp [captured, hi]) ?_
    rw [hi]
    exact fun hc => hid hc.2
  · intro h hi
    refine dr_samples halt h (by simp [captured, hi, Ne.symm hiu]) ?_
    rw [hi]
    exact fun hc => hud hc.2
  · intro h hi
    refine dr_samples halt h (by simp [captured, hi, Ne.symm hib, Ne.symm hub]) ?_
    rw [hi]
    exact fun hc => hc.1 rfl
  -- the user register: TDO is the user logic's own
  · intro h hi
    have hseen := (drScan (g := g) halt h).seen
    unfold DrSeen at hseen
    rwa [if_pos ⟨by rw [hi]; exact hdb, hi⟩] at hseen
  · intro h hi
    simp only [List.mem_cons, List.not_mem_nil, or_false, not_or] at hi
    obtain ⟨h1, h2, h3, h4⟩ := hi
    have hseen := (drScan (g := g) halt h).seen
    unfold DrSeen at hseen
    rw [if_neg (fun hc => h3 hc.2)] at hseen
    simpa [captured, h1, h2, h4] using hseen

/-- Two bits through the instruction register, with a rest in Pause-IR between them. -/
theorem scan_law_two_bits :
    let clocks : List (Bool × Bool) :=
      [(false, false), (true, false), (true, false), (false, false), (false, false), (true, true),
        (false, false), (true, false), (false, false), (true, false), (true, false)]
    let es := clocks.flatMap fun (tms, tdi) => [⟨true, tms, tdi, false⟩, ⟨false, tms, tdi, false⟩]
    ScanLaw .default es ∧ tapState es = .scan .ir .update :=
  ⟨(scan_law .default (by decide) (by decide)).1, by decide⟩

end XvcSupport.Jtag2BSCAN
