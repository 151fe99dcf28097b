import XvcSupport.ScanLaw

namespace XvcSupport

namespace Jtag2BSCAN

open JtagTapIR (Generics regBypass)
open JtagTapFsm (TapState Scan scanned scanned_append)
open ShiftRegister

variable {L : ℕ} (g : Generics L)

/-- What the user register sends after some edges. -/
abbrev User := List Edge → Bool

variable (user : User)

/-- The rising edge of a period of TCK. -/
def rise (es : List Edge) (tms tdi : Bool) : Edge := ⟨true, tms, tdi, user es⟩

def clock (es : List Edge) (tms tdi : Bool) : List Edge :=
  es ++ [rise user es tms tdi] ++ [⟨false, tms, tdi, user (es ++ [rise user es tms tdi])⟩]

/-- The edges after `n` periods with the bits of `tms` and `tdi`. -/
def clocks (tms tdi : ℕ) (es : List Edge) : ℕ → List Edge
  | 0 => es
  | n + 1 => clock user (clocks tms tdi es n) (tms.testBit n) (tdi.testBit n)

/-- `JTDO` at the rising edges. -/
def samples (tms tdi : ℕ) (es : List Edge) (n : ℕ) : ℕ :=
  Nat.ofBits fun i : Fin n => (after g (clocks user tms tdi es i)).jtdo

/-- TCK is low. -/
structure Low (es : List Edge) : Prop where
  alternating : Alternating es
  low : ∀ e ∈ es.getLast?, e.rising = false

variable {g user} {es : List Edge} {tms tdi : Bool} {tmsVec tdiVec n : ℕ}

theorem Low.clock (h : Low es) : Low (clock user es tms tdi) := by
  refine ⟨?_, by simp [Jtag2BSCAN.clock]⟩
  have hrise : Alternating (es ++ [rise user es tms tdi]) := by
    refine List.isChain_append.mpr ⟨h.alternating, List.isChain_singleton _, ?_⟩
    intro x hx y hy
    obtain rfl : rise user es tms tdi = y := by simpa using hy
    simp [h.low x hx, rise]
  refine List.isChain_append.mpr ⟨hrise, List.isChain_singleton _, ?_⟩
  intro x hx y hy
  obtain rfl : rise user es tms tdi = x := by simpa using hx
  obtain rfl := List.mem_singleton.mp (List.mem_of_mem_head? hy)
  simp [rise]

theorem Low.clocks (h : Low es) (n : ℕ) : Low (clocks user tmsVec tdiVec es n) := by
  induction n with
  | zero => exact h
  | succ n ih => exact ih.clock

@[simp] theorem tapState_clock :
    tapState (clock user es tms tdi) = (tapState es).next tms := by
  rw [clock, tapState_falling rfl, tapState_rising rfl]
  rfl

theorem tapState_clocks : tapState (clocks user tmsVec tdiVec es n) =
    ((List.range n).map tmsVec.testBit).foldl TapState.next (tapState es) := by
  induction n with
  | zero => rfl
  | succ n ih =>
    rw [clocks, tapState_clock, ih, List.range_succ, List.map_append, List.foldl_append]
    rfl

theorem observe_clock : observe g (clock user es tms tdi) =
    observe g es ++ [(tapState es, sample g es (rise user es tms tdi))] := by
  rw [clock, observe_falling g rfl, observe_rising g rfl]

theorem ir_clock_reset (h : (tapState es).next tms = .testLogicReset) :
    (after g (clock user es tms tdi)).rn.ir = g.regIdcode := by
  have hstate : tapState (es ++ [rise user es tms tdi]) = .testLogicReset := by
    rw [tapState_rising rfl, ← h]
    rfl
  rw [clock, after_append, edge_falling rfl]
  change ((after g (es ++ [rise user es tms tdi])).rnin g).ir = _
  rw [rnin_ir g (after_fsm g _), hstate]
  rfl

theorem ir_clock_kept (hreset : (tapState es).next tms ≠ .testLogicReset)
    (hupdate : (tapState es).next tms ≠ .scan .ir .update) :
    (after g (clock user es tms tdi)).rn.ir = (after g es).rn.ir := by
  have hstate : tapState (es ++ [rise user es tms tdi]) = (tapState es).next tms :=
    tapState_rising rfl
  rw [clock, after_append, edge_falling rfl]
  change ((after g (es ++ [rise user es tms tdi])).rnin g).ir = _
  rw [rnin_ir g (after_fsm g _), hstate, after_append, edge_rising rfl]
  unfold irIn
  split
  · contradiction
  · contradiction
  · rfl

variable {reg : Scan}

/-- The samples of `n` periods. -/
def samplesOf (g : Generics L) (user : User) (tmsVec tdiVec : ℕ) (es : List Edge) (n : ℕ) :
    List Sample :=
  (List.range n).map fun i => sample g (clocks user tmsVec tdiVec es i)
    (rise user (clocks user tmsVec tdiVec es i) (tmsVec.testBit i) (tdiVec.testBit i))

variable (g user tmsVec tdiVec es n) in
theorem samplesOf_tdi : (samplesOf g user tmsVec tdiVec es n).map Sample.tdi =
    (List.range n).map tdiVec.testBit := by
  rw [samplesOf, List.map_map]
  rfl

variable (g user tmsVec tdiVec es n) in
theorem samplesOf_jtdo : (samplesOf g user tmsVec tdiVec es n).map Sample.jtdo =
    (List.range n).map (samples g user tmsVec tdiVec es n).testBit := by
  rw [samplesOf, List.map_map]
  apply List.map_congr_left
  intro i hi
  rw [samples, Nat.testBit_ofBits_lt _ i (List.mem_range.mp hi)]
  rfl

@[simp] theorem samplesOf_length : (samplesOf g user tmsVec tdiVec es n).length = n := by
  simp [samplesOf]

theorem samples_lt : samples g user tmsVec tdiVec es n < 2 ^ n := Nat.ofBits_lt_two_pow _

theorem observe_clocks : observe g (clocks user tmsVec tdiVec es n) = observe g es ++
    (((List.range n).map fun i => tapState (clocks user tmsVec tdiVec es i)).zip
      (samplesOf g user tmsVec tdiVec es n)) := by
  induction n with
  | zero => simp [clocks]
  | succ n ih =>
    rw [clocks, observe_clock, ih, samplesOf, samplesOf, List.range_succ, List.map_append,
      List.map_append, List.zip_append (by simp), List.append_assoc]
    rfl

variable (g) in
theorem scanned_clocks (hin : ∀ i < n, tapState (clocks user tmsVec tdiVec es i) =
    .scan reg .shift) : scanned reg (observe g (clocks user tmsVec tdiVec es n)) =
      scanned reg (observe g es) ++ samplesOf g user tmsVec tdiVec es n := by
  induction n with
  | zero => simp [clocks, samplesOf]
  | succ n ih =>
    have hlast := hin n (Nat.lt_succ_self n)
    rw [clocks, observe_clock, scanned_append, hlast, if_neg (by simp), if_pos rfl,
      ih fun i hi => hin i (Nat.lt_succ_of_lt hi), List.append_assoc, samplesOf, samplesOf,
      List.range_succ, List.map_append]
    rfl

@[simp] theorem next_shift (reg : Scan) (tms : Bool) :
    (TapState.scan reg .shift).next tms = .scan reg (if tms then .exit1 else .shift) := by
  cases reg
  all_goals rfl

@[simp] theorem next_exit1 (reg : Scan) (tms : Bool) :
    (TapState.scan reg .exit1).next tms = .scan reg (if tms then .update else .pause) := by
  cases reg
  all_goals rfl

@[simp] theorem next_update (reg : Scan) (tms : Bool) :
    (TapState.scan reg .update).next tms =
      if tms then .scan .dr .select else .runTestIdle := by
  cases reg
  all_goals rfl

variable (user tdiVec) in
/-- With TMS low the TAP stays in a shift state. -/
theorem shift_clocks (h : tapState es = .scan reg .shift)
    (hlow : ∀ i < n, tmsVec.testBit i = false) :
    tapState (clocks user tmsVec tdiVec es n) = .scan reg .shift := by
  induction n with
  | zero => exact h
  | succ n ih =>
    rw [clocks, tapState_clock, ih fun i hi => hlow i (Nat.lt_succ_of_lt hi),
      hlow n (Nat.lt_succ_self n), next_shift, if_neg Bool.false_ne_true]

theorem shift_ir (h : tapState es = .scan reg .shift)
    (hlow : ∀ i < n, tmsVec.testBit i = false) :
    (after g (clocks user tmsVec tdiVec es n)).rn.ir = (after g es).rn.ir := by
  induction n with
  | zero => rfl
  | succ n ih =>
    have hbefore : ∀ i < n, tmsVec.testBit i = false := fun i hi =>
      hlow i (Nat.lt_succ_of_lt hi)
    have hstate := shift_clocks user tdiVec h hbefore
    have hnext : (tapState (clocks user tmsVec tdiVec es n)).next (tmsVec.testBit n) =
        .scan reg .shift := by
      rw [hstate, hlow n (Nat.lt_succ_self n), next_shift, if_neg Bool.false_ne_true]
    rw [clocks, ir_clock_kept, ih hbefore]
    · rw [hnext]
      simp
    · rw [hnext]
      simp

variable (g user es) in
theorem reset_clocks : tapState (clocks user 0b011111 0 es 6) = .runTestIdle ∧
    (after g (clocks user 0b011111 0 es 6)).rn.ir = g.regIdcode := by
  have hfive : tapState (clocks user 0b011111 0 es 5) = .testLogicReset := by
    rw [tapState_clocks]
    cases tapState es with
    | testLogicReset => rfl
    | runTestIdle => rfl
    | scan reg sub =>
      cases reg
      all_goals
        cases sub
        all_goals rfl
  have hlast : tapState (clocks user 0b011111 0 es 6) = .runTestIdle := by
    rw [clocks, tapState_clock, hfive]
    rfl
  refine ⟨hlast, ?_⟩
  have hnext := hlast
  rw [clocks, tapState_clock] at hnext
  rw [clocks, ir_clock_kept (by rw [hnext]; simp) (by rw [hnext]; simp), clocks]
  rw [clocks, tapState_clock] at hfive
  exact ir_clock_reset hfive

theorem scanned_capture (h : tapState es = .scan reg .capture) :
    scanned reg (observe g (clock user es tms tdi)) = [] := by
  rw [observe_clock, scanned_append, if_pos h]

variable (g user) in
theorem selIR_clocks (h : tapState es = .runTestIdle) :
    tapState (clocks user 0b0011 0 es 4) = .scan .ir .shift ∧
      scanned .ir (observe g (clocks user 0b0011 0 es 4)) = [] := by
  constructor
  · rw [tapState_clocks, h]
    rfl
  · apply scanned_capture
    rw [tapState_clocks, h]
    rfl

variable (g user) in
theorem selDR_clocks (h : tapState es = .runTestIdle) :
    tapState (clocks user 0b001 0 es 3) = .scan .dr .shift ∧
      scanned .dr (observe g (clocks user 0b001 0 es 3)) = [] ∧
      (after g (clocks user 0b001 0 es 3)).rn.ir = (after g es).rn.ir := by
  have hstate (n : ℕ) : tapState (clocks user 0b001 0 es n) =
      ((List.range n).map (Nat.testBit 0b001)).foldl TapState.next .runTestIdle := by
    rw [tapState_clocks, h]
  refine ⟨hstate 3, ?_, ?_⟩
  · exact scanned_capture (hstate 2)
  · have hkept (n : ℕ) (hreset : tapState (clocks user 0b001 0 es (n + 1)) ≠ .testLogicReset)
        (hupdate : tapState (clocks user 0b001 0 es (n + 1)) ≠ .scan .ir .update) :
        (after g (clocks user 0b001 0 es (n + 1))).rn.ir =
          (after g (clocks user 0b001 0 es n)).rn.ir := by
      rw [clocks, tapState_clock] at hreset hupdate
      rw [clocks, ir_clock_kept hreset hupdate]
    rw [hkept 2, hkept 1, hkept 0]
    · rfl
    all_goals
      rw [hstate]
      decide

theorem testBit_update {m : ℕ} (hm : 1 ≤ m) (i : ℕ) :
    (3 <<< (m - 1)).testBit i = decide (i = m - 1 ∨ i = m) := by
  have hthree : (3 : ℕ).testBit (i - (m - 1)) = decide (i - (m - 1) < 2) := by
    rw [show 3 = 2 ^ 2 - 1 from rfl, Nat.testBit_two_pow_sub_one]
  rw [Nat.testBit_shiftLeft, hthree, ← Bool.decide_and, decide_eq_decide]
  omega

variable (user tdiVec) in
theorem update_clocks {m : ℕ} (hm : 1 ≤ m) (h : tapState es = .scan reg .shift) :
    (∀ i < m, tapState (clocks user (3 <<< (m - 1)) tdiVec es i) = .scan reg .shift) ∧
      tapState (clocks user (3 <<< (m - 1)) tdiVec es m) = .scan reg .exit1 ∧
      tapState (clocks user (3 <<< (m - 1)) tdiVec es (m + 1)) = .scan reg .update ∧
      tapState (clocks user (3 <<< (m - 1)) tdiVec es (m + 2)) = .runTestIdle := by
  have hin : ∀ i < m, tapState (clocks user (3 <<< (m - 1)) tdiVec es i) =
      .scan reg .shift := by
    intro i hi
    apply shift_clocks user tdiVec h
    intro j hj
    rw [testBit_update hm, decide_eq_false]
    omega
  have hexit : tapState (clocks user (3 <<< (m - 1)) tdiVec es m) = .scan reg .exit1 := by
    obtain ⟨k, rfl⟩ := Nat.exists_eq_add_of_le' hm
    rw [clocks, tapState_clock, hin k (Nat.lt_succ_self k), testBit_update hm,
      decide_eq_true (by omega), next_shift, if_pos rfl]
  have hupdate : tapState (clocks user (3 <<< (m - 1)) tdiVec es (m + 1)) =
      .scan reg .update := by
    rw [clocks, tapState_clock, hexit, testBit_update hm, decide_eq_true (by omega), next_exit1,
      if_pos rfl]
  refine ⟨hin, hexit, hupdate, ?_⟩
  rw [clocks, tapState_clock, hupdate, testBit_update hm, decide_eq_false (by omega),
    next_update, if_neg Bool.false_ne_true]

theorem testBit_samples {i : ℕ} (hi : i < n) : (samples g user tmsVec tdiVec es n).testBit i =
    (after g (clocks user tmsVec tdiVec es i)).jtdo := by
  rw [samples, Nat.testBit_ofBits_lt _ i hi]

/-- Where a register of at most `k` bits gets `k` ones and then `k` zeros, the last `k` bits out
start with as many ones as the register has bits. -/
theorem getD_ones_zeros {w : List Bool} {k i : ℕ} (hw : w.length ≤ k) (hi : i < k) :
    ((w ++ (List.replicate k true ++ List.replicate k false)).take (k + k)).getD (k + i) false =
      decide (i < w.length) := by
  have hlt : k + i < k + k := by omega
  have hge : w.length ≤ k + i := by omega
  rw [List.getD_eq_getElem?_getD, List.getElem?_take_of_lt hlt, List.getElem?_append_right hge]
  by_cases hin : i < w.length
  · rw [List.getElem?_append_left (by simp; omega), List.getElem?_replicate, if_pos (by omega)]
    simp [hin]
  · rw [List.getElem?_append_right (by simp; omega), List.getElem?_replicate, if_pos (by
      simp
      omega)]
    simp [hin]

variable (g user) in
theorem ir_probe (hL : 0 < L) {k : ℕ} (hk : L ≤ k) (hes : Low es)
    (hstate : tapState es = .scan .ir .shift) (hempty : scanned .ir (observe g es) = []) :
    samples g user (3 <<< (k - 1)) 0 (clocks user 0 (2 ^ k - 1) es k) (k + 2) % 2 ^ k =
      2 ^ L - 1 := by
  have hpos : 1 ≤ k := by omega
  set es' := clocks user 0 (2 ^ k - 1) es k with hes'
  have hstate' : tapState es' = .scan .ir .shift :=
    shift_clocks user _ hstate fun i _ => Nat.zero_testBit i
  obtain ⟨hin, hexit, -, -⟩ := update_clocks user 0 hpos hstate'
  have hfirst : scanned .ir (observe g es') = samplesOf g user 0 (2 ^ k - 1) es k := by
    rw [hes', scanned_clocks g, hempty, List.nil_append]
    intro i _
    exact shift_clocks user _ hstate fun j _ => Nat.zero_testBit j
  have hseen := scanned_clocks g hin
  rw [hfirst] at hseen
  have halt : Alternating (clocks user (3 <<< (k - 1)) 0 es' k) :=
    ((hes.clocks k).clocks k).alternating
  -- `k` ones and then zeros: each bit shifted in comes out `L` bits later, by the scan law
  have hlaw := (transfer_ir (g := g) hL halt (by rw [hexit]; rfl)).outs_eq
  have hones : (List.range k).map (2 ^ k - 1).testBit = List.replicate k true := by
    apply List.ext_getElem (by simp)
    intro i hi _
    simp only [List.length_map, List.length_range] at hi
    simp [Nat.testBit_two_pow_sub_one, hi]
  have hzeros : (List.range k).map (Nat.testBit 0) = List.replicate k false := by
    apply List.ext_getElem (by simp)
    intro i hi _
    simp
  rw [hseen, List.map_append, List.map_append, samplesOf_tdi, samplesOf_tdi, samplesOf_jtdo,
    samplesOf_jtdo, hones, hzeros] at hlaw
  apply Nat.eq_of_testBit_eq
  intro i
  rw [Nat.testBit_mod_two_pow, Nat.testBit_two_pow_sub_one]
  by_cases hi : i < k
  -- the second scan starts at bit `k` of what has been read
  · have hbit := congrArg (fun l => l.getD (k + i) false) hlaw
    have hleft : ((List.range k).map (samples g user 0 (2 ^ k - 1) es k).testBit ++
        (List.range k).map (samples g user (3 <<< (k - 1)) 0 es' k).testBit).getD (k + i) false =
        (samples g user (3 <<< (k - 1)) 0 es' k).testBit i := by
      rw [List.getD_append_right _ _ _ _ (by simp)]
      simp [hi]
    have hright := getD_ones_zeros (w := bitsOf g.irVal) (by simpa using hk) hi
    rw [bitsOf_length] at hright
    rw [hleft, List.length_append, List.length_replicate, List.length_replicate, hright,
      testBit_samples hi] at hbit
    rw [testBit_samples (Nat.lt_add_right 2 hi), hbit]
    simp [hi]
  · have hiL : ¬ i < L := by omega
    simp [hi, hiL]

variable (user tdiVec) in
theorem idcode_samples (hcodes : g.regIdcode ≠ g.regUser) (hes : Low es)
    (hstate : tapState es = .scan .dr .shift) (hempty : scanned .dr (observe g es) = [])
    (hir : (after g es).rn.ir = g.regIdcode) :
    samples g user 0 tdiVec es 32 = g.idcodeVal.toNat := by
  have hlow : ∀ n, ∀ i < n, Nat.testBit 0 i = false := fun _ i _ => Nat.zero_testBit i
  have hstate' : tapState (clocks user 0 tdiVec es 32) = .scan .dr .shift :=
    shift_clocks user _ hstate (hlow 32)
  have hir' : (after g (clocks user 0 tdiVec es 32)).rn.ir = g.regIdcode :=
    (shift_ir hstate (hlow 32)).trans hir
  have hseen : scanned .dr (observe g (clocks user 0 tdiVec es 32)) =
      samplesOf g user 0 tdiVec es 32 := by
    rw [scanned_clocks g fun i _ => shift_clocks user _ hstate (hlow i), hempty, List.nil_append]
  have hcap : captured g (after g (clocks user 0 tdiVec es 32)).rn.ir =
      some (bitsOf g.idcodeVal) := by
    rw [hir', captured, if_pos rfl]
  have hlaw := dr_samples (hes.clocks 32).alternating (by rw [hstate']; rfl) hcap
    (by rw [hir']; exact fun hc => hcodes hc.2)
  rw [hseen, samplesOf_length, samplesOf_jtdo, List.take_append_of_le_length (by simp),
    List.take_of_length_le (by simp)] at hlaw
  apply Nat.eq_of_testBit_eq
  intro i
  by_cases hi : i < 32
  · have hbit : ((List.range 32).map (samples g user 0 tdiVec es 32).testBit).getD i false =
        (bitsOf g.idcodeVal).getD i false := by rw [hlaw]
    rw [bitsOf_getD _ hi, List.getD_eq_getElem _ _ (by simpa using hi), List.getElem_map,
      List.getElem_range] at hbit
    rw [hbit, BitVec.testBit_toNat]
  · rw [Nat.testBit_lt_two_pow (lt_of_lt_of_le samples_lt (Nat.pow_le_pow_right (by decide)
      (not_lt.mp hi))), BitVec.testBit_toNat, BitVec.getLsbD_of_ge _ _ (not_lt.mp hi)]

end Jtag2BSCAN

namespace XvcClient

open JtagTapIR (Generics)
open JtagTapFsm (TapState Scan scanned)
open Jtag2BSCAN

/-- What a method returns and what it does to the TAP, or the exception that it raises. -/
abbrev M : Type → Type := StateT (List Edge) (Except String)

variable {L : ℕ} (g : Generics L) (user : User) (maxv : ℤ)

/-- `sendVecs`, on an ideal link. -/
def sendVecs (tms tdi nbits : ℕ) : M ℕ := fun es =>
  if nbits > maxv then
    .error ("Vectors larger than " ++ toString maxv ++ " not supported")
  else .ok (samples g user tms tdi es nbits, clocks user tms tdi es nbits)

def resetToIdle : M Unit := do
  let _ ← sendVecs g user maxv 0b011111 0 6

def selIR : M Unit := do
  let _ ← sendVecs g user maxv 0b0011 0 4

def selDR : M Unit := do
  let _ ← sendVecs g user maxv 0b001 0 3

def shift (regin reglen : ℕ) (update : Bool) : M ℕ := do
  if update then
    if reglen = 0 then throw "negative shift count"
    else
      let tdo ← sendVecs g user maxv (3 <<< (reglen - 1)) regin (reglen + 2)
      return tdo &&& (1 <<< reglen - 1)
  else sendVecs g user maxv 0 regin reglen

def getID : M ℕ := do
  resetToIdle g user maxv
  selDR g user maxv
  let myId ← shift g user maxv 0 32 false
  let _ ← shift g user maxv myId 32 true
  return myId

/-- `getIRLength`; `iLen` is `iLen_` before, and `log2` is `int(math.log2(·))`. -/
def getIRLength (log2 : ℕ → ℕ) (iLen : Option ℕ) : M ℕ := do
  resetToIdle g user maxv
  match iLen with
  | some n => return n
  | none =>
    let lmax := 1024
    let ones := 1 <<< lmax - 1
    selIR g user maxv
    let _ ← shift g user maxv ones lmax false
    let tdo ← shift g user maxv 0 lmax true
    return log2 (tdo + 1)

variable {g user maxv}

section Run

variable {α β : Type} {es es' : List Edge}

theorem bind_ok {x : M α} {f : α → M β} {a : α} (h : x es = .ok (a, es')) :
    (x >>= f) es = f a es' := by
  change (x es >>= fun r => f r.1 r.2) = _
  rw [h]
  rfl

theorem sendVecs_eq {tms tdi nbits : ℕ} (h : nbits ≤ maxv) (es : List Edge) :
    sendVecs g user maxv tms tdi nbits es =
      .ok (samples g user tms tdi es nbits, clocks user tms tdi es nbits) := by
  rw [sendVecs, if_neg (not_lt.mpr h)]

theorem shift_false {regin reglen : ℕ} (h : reglen ≤ maxv) (es : List Edge) :
    shift g user maxv regin reglen false es =
      .ok (samples g user 0 regin es reglen, clocks user 0 regin es reglen) :=
  sendVecs_eq h es

theorem shift_true {regin reglen : ℕ} (hpos : 1 ≤ reglen) (h : (reglen + 2 : ℕ) ≤ maxv)
    (es : List Edge) : shift g user maxv regin reglen true es =
      .ok (samples g user (3 <<< (reglen - 1)) regin es (reglen + 2) % 2 ^ reglen,
        clocks user (3 <<< (reglen - 1)) regin es (reglen + 2)) := by
  have hne : ¬ reglen = 0 := by omega
  rw [shift, if_pos rfl, if_neg hne, bind_ok (sendVecs_eq h es), Nat.one_shiftLeft,
    Nat.and_two_pow_sub_one_eq_mod]
  rfl

theorem shift_raises {regin reglen : ℕ} (hpos : 1 ≤ reglen) (h : maxv < (reglen + 2 : ℕ))
    (es : List Edge) : shift g user maxv regin reglen true es =
      .error ("Vectors larger than " ++ toString maxv ++ " not supported") := by
  have hne : ¬ reglen = 0 := by omega
  have hsend : sendVecs g user maxv (3 <<< (reglen - 1)) regin (reglen + 2) es =
      .error ("Vectors larger than " ++ toString maxv ++ " not supported") := by
    rw [sendVecs, if_pos h]
  rw [shift, if_pos rfl, if_neg hne]
  change (sendVecs g user maxv _ regin (reglen + 2) es >>= fun r => Except.ok _) = _
  rw [hsend]
  rfl

variable (hmaxv : 1026 ≤ maxv)

include hmaxv

theorem resetToIdle_eq : resetToIdle g user maxv es =
    .ok ((), clocks user 0b011111 0 es 6) := by
  rw [resetToIdle, bind_ok (sendVecs_eq (by omega) es)]
  rfl

theorem selIR_eq : selIR g user maxv es = .ok ((), clocks user 0b0011 0 es 4) := by
  rw [selIR, bind_ok (sendVecs_eq (by omega) es)]
  rfl

theorem selDR_eq : selDR g user maxv es = .ok ((), clocks user 0b001 0 es 3) := by
  rw [selDR, bind_ok (sendVecs_eq (by omega) es)]
  rfl

theorem getID_eq (hcodes : g.regIdcode ≠ g.regUser) (hes : Low es) :
    ∃ es', getID g user maxv es = .ok (g.idcodeVal.toNat, es') ∧
      tapState es' = .runTestIdle := by
  obtain ⟨hidle, hreset⟩ := reset_clocks g user es
  obtain ⟨hstate, hempty, hkept⟩ := selDR_clocks g user hidle
  have hid := idcode_samples user 0 hcodes ((hes.clocks 6).clocks 3) hstate
    hempty (hkept.trans hreset)
  have hstate' := shift_clocks user 0 hstate (n := 32) fun i _ => Nat.zero_testBit i
  rw [getID, bind_ok (resetToIdle_eq hmaxv), bind_ok (selDR_eq hmaxv),
    bind_ok (shift_false (by omega) _), hid,
    bind_ok (shift_true (by decide) (by omega) _)]
  exact ⟨_, rfl, (update_clocks user _ (by decide) hstate').2.2.2⟩

theorem getIRLength_eq (hL : 2 ≤ L) (hL' : L ≤ 1024) {log2 : ℕ → ℕ}
    (hlog : ∀ k, log2 (2 ^ k) = k) (hes : Low es) :
    ∃ es', getIRLength g user maxv log2 none es = .ok (L, es') ∧
      tapState es' = .runTestIdle := by
  have hidle := (reset_clocks g user es).1
  obtain ⟨hstate, hempty⟩ := selIR_clocks g user hidle
  have hprobe := ir_probe g user (by omega) hL' ((hes.clocks 6).clocks 4) hstate
    hempty
  have hstate' := shift_clocks user (2 ^ 1024 - 1) hstate (n := 1024)
    fun i _ => Nat.zero_testBit i
  have hones (k : ℕ) : 1 <<< k - 1 = 2 ^ k - 1 := by rw [Nat.one_shiftLeft]
  have hpow : 2 ^ L - 1 + 1 = 2 ^ L := Nat.sub_add_cancel Nat.one_le_two_pow
  rw [getIRLength, bind_ok (resetToIdle_eq hmaxv)]
  rw [bind_ok (selIR_eq hmaxv), hones 1024, bind_ok (shift_false (by omega) _),
    bind_ok (shift_true (by decide) (by omega) _), hprobe, hpow, hlog]
  exact ⟨_, rfl, (update_clocks user _ (by decide) hstate').2.2.2⟩

end Run

/-- What a shift of `m` bits with an update does: the TAP is clocked `m` times in the shift state,
where it gets the bits of `v` and sends those of `tdo`, passes Exit1 and Update once each and comes
to rest in Run-Test/Idle. -/
def Shifted (g : Generics L) (reg : Scan) (v m : ℕ) (es : List Edge) (tdo : ℕ)
    (es' : List Edge) : Prop :=
  ∃ new, observe g es' = observe g es ++ new ∧
    new.map Prod.fst =
      List.replicate m (.scan reg .shift) ++ [.scan reg .exit1, .scan reg .update] ∧
    (new.take m).map (fun x => x.2.tdi) = (List.range m).map v.testBit ∧
    (new.take m).map (fun x => x.2.jtdo) = (List.range m).map tdo.testBit ∧
    tdo < 2 ^ m ∧ tapState es' = .runTestIdle

theorem shifted {reg : Scan} {v m : ℕ} {es : List Edge} (hm : 1 ≤ m)
    (hstate : tapState es = .scan reg .shift) :
    Shifted g reg v m es (samples g user (3 <<< (m - 1)) v es (m + 2) % 2 ^ m)
      (clocks user (3 <<< (m - 1)) v es (m + 2)) := by
  obtain ⟨hin, hexit, hupdate, hidle⟩ := update_clocks user v hm hstate
  have htake (f : ℕ → Bool) : ((List.range (m + 2)).map f).take m = (List.range m).map f := by
    rw [← List.map_take, List.take_range, Nat.min_eq_left (Nat.le_add_right m 2)]
  have hproj (p : Sample → Bool) : ((((List.range (m + 2)).map fun i =>
        tapState (clocks user (3 <<< (m - 1)) v es i)).zip
          (samplesOf g user (3 <<< (m - 1)) v es (m + 2))).take m).map (fun x => p x.2) =
      ((samplesOf g user (3 <<< (m - 1)) v es (m + 2)).map p).take m := by
    have hlen : (samplesOf g user (3 <<< (m - 1)) v es (m + 2)).length ≤
        ((List.range (m + 2)).map fun i =>
          tapState (clocks user (3 <<< (m - 1)) v es i)).length := by simp
    rw [List.map_take, ← List.map_snd_zip hlen, List.map_map, List.map_snd_zip hlen]
    rfl
  refine ⟨_, observe_clocks, ?_, ?_, ?_, Nat.mod_lt _ (Nat.two_pow_pos m), hidle⟩
  · rw [List.map_fst_zip (by simp), List.range_succ, List.range_succ, List.map_append,
      List.map_append, List.append_assoc]
    have hfirst : (List.range m).map (fun i =>
        tapState (clocks user (3 <<< (m - 1)) v es i)) = List.replicate m (.scan reg .shift) := by
      rw [List.eq_replicate_iff]
      refine ⟨by simp, ?_⟩
      intro t ht
      obtain ⟨i, hi, rfl⟩ := List.mem_map.mp ht
      exact hin i (List.mem_range.mp hi)
    rw [hfirst, List.map_singleton, List.map_singleton, hexit, hupdate]
    rfl
  · rw [hproj, samplesOf_tdi, htake]
  · rw [hproj, samplesOf_jtdo, htake]
    apply List.map_congr_left
    intro i hi
    simp [List.mem_range.mp hi]

/-- The client finds out the length of the instruction register and the IDCODE of every TAP, in
any state, and leaves it in Run-Test/Idle; a shift with an update scans its bits and passes Update
once, or raises where the announced limit is too small for it. -/
theorem client_identifies (hL : 2 ≤ L) (hL' : L ≤ 1024) (g : Generics L)
    (hcodes : g.regIdcode ≠ g.regUser) (user : User) {maxv : ℤ} (hmaxv : 1026 ≤ maxv)
    {log2 : ℕ → ℕ} (hlog : ∀ k, log2 (2 ^ k) = k) {es : List Edge} (hes : Low es) :
    (∃ es', getIRLength g user maxv log2 none es = .ok (L, es') ∧
      tapState es' = .runTestIdle) ∧
    (∃ es', getID g user maxv es = .ok (g.idcodeVal.toNat, es') ∧
      tapState es' = .runTestIdle) ∧
    ∀ (reg : Scan) (v m : ℕ), tapState es = .scan reg .shift → 1 ≤ m → v < 2 ^ m →
      ((m + 2 : ℕ) ≤ maxv → ∃ tdo es', shift g user maxv v m true es = .ok (tdo, es') ∧
        Shifted g reg v m es tdo es') ∧
      (maxv < (m + 2 : ℕ) → shift g user maxv v m true es =
        .error ("Vectors larger than " ++ toString maxv ++ " not supported")) := by
  refine ⟨getIRLength_eq hmaxv hL hL' hlog hes, getID_eq hmaxv hcodes hes, ?_⟩
  intro reg v m hstate hm _
  exact ⟨fun hle => ⟨_, _, shift_true hm hle es, shifted hm hstate⟩,
    fun hlt => shift_raises hm hlt es⟩

/-- The default TAP in Shift-DR. -/
theorem client_identifies_default :
    let tms := [false, true, false, false]
    let es := tms.flatMap fun tms => [⟨true, tms, false, false⟩, ⟨false, tms, false, false⟩]
    (∃ es', getIRLength .default (fun _ => true) 2048 Nat.log2 none es = .ok (6, es') ∧
      tapState es' = .runTestIdle) ∧
    ∃ tdo es', shift .default (fun _ => true) 2048 0b101 3 true es = .ok (tdo, es') ∧
      Shifted .default .dr 0b101 3 es tdo es' := by
  intro tms es
  have hlow : Low es := ⟨by decide, by simp [es, tms]⟩
  have h := client_identifies (by decide) (by decide) .default (by decide) (fun _ => true)
    (by decide : (1026 : ℤ) ≤ 2048) (fun _ => Nat.log2_two_pow) hlow
  exact ⟨h.1, (h.2.2 .dr 0b101 3 rfl (by decide) (by decide)).1 (by decide)⟩

end XvcClient

end XvcSupport
