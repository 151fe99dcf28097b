import XvcSupport.JtagDump
import XvcSupport.ScanLaw

namespace XvcSupport

open JtagTapFsm (TapState Scan SubState scanned clockedFrom)

/-- The classes derived from `JtagState`. -/
inductive JtagState
  | testLogicReset
  | runTestIdle
  | selectDRScan
  | captureDR
  | shiftDR
  | exit1DR
  | pauseDR
  | exit2DR
  | updateDR
  | selectIRScan
  | captureIR
  | shiftIR
  | exit1IR
  | pauseIR
  | exit2IR
  | updateIR
deriving DecidableEq, Repr

structure JtagDumpCtx where
  iri : JtagRegType
  dri : JtagRegType
  iro : JtagRegType
  dro : JtagRegType
  state : JtagState
deriving DecidableEq

namespace JtagDumpCtx

def init : JtagDumpCtx where
  iri := .clear
  dri := .clear
  iro := .clear
  dro := .clear
  state := .testLogicReset

def clearDR (c : JtagDumpCtx) : JtagDumpCtx := { c with dri := .clear, dro := .clear }

def clearIR (c : JtagDumpCtx) : JtagDumpCtx := { c with iri := .clear, iro := .clear }

def shiftDR (c : JtagDumpCtx) (tdo tdi : Bool) : JtagDumpCtx :=
  { c with dro := c.dro.addBit tdo, dri := c.dri.addBit tdi }

def shiftIR (c : JtagDumpCtx) (tdo tdi : Bool) : JtagDumpCtx :=
  { c with iro := c.iro.addBit tdo, iri := c.iri.addBit tdi }

def changeState (c : JtagDumpCtx) (newState : JtagState) : JtagDumpCtx :=
  { c with state := newState }

/-- The `advance` of the class that `state_` points to. -/
def advance (c : JtagDumpCtx) (tms tdo tdi : Bool) : JtagDumpCtx :=
  match c.state with
  | .testLogicReset => if !tms then c.changeState .runTestIdle else c
  | .runTestIdle => if tms then c.changeState .selectDRScan else c
  | .selectDRScan => c.changeState (if tms then .selectIRScan else .captureDR)
  | .captureDR => c.clearDR.changeState (if tms then .exit1DR else .shiftDR)
  | .shiftDR => if tms then (c.shiftDR tdo tdi).changeState .exit1DR else c.shiftDR tdo tdi
  | .exit1DR => c.changeState (if tms then .updateDR else .pauseDR)
  | .pauseDR => if tms then c.changeState .exit2DR else c
  | .exit2DR => c.changeState (if tms then .updateDR else .shiftDR)
  | .updateDR => c.changeState (if tms then .selectDRScan else .runTestIdle)
  | .selectIRScan => c.changeState (if tms then .testLogicReset else .captureIR)
  | .captureIR => c.clearIR.changeState (if tms then .exit1IR else .shiftIR)
  | .shiftIR => if tms then (c.shiftIR tdo tdi).changeState .exit1IR else c.shiftIR tdo tdi
  | .exit1IR => c.changeState (if tms then .updateIR else .pauseIR)
  | .pauseIR => if tms then c.changeState .exit2IR else c
  | .exit2IR => c.changeState (if tms then .updateIR else .shiftIR)
  | .updateIR => c.changeState (if tms then .selectDRScan else .runTestIdle)

/-- The arguments of one call of `processBuf`. -/
structure Buf where
  nbits : ℕ
  tmsb : Mem
  tdob : Mem
  tdib : Mem

/-- The bits of one octet at `i`, `i + 1` and so on; `true` if the state `until` ends the call. -/
def octetLoop (until_ : Option JtagState) (tms tdo tdi : Byte) :
    ℕ → ℕ → ℕ → JtagDumpCtx → JtagDumpCtx × ℕ × Bool
  | 0, _, nbits, c => (c, nbits, false)
  | todo + 1, i, nbits, c =>
    if until_ = some c.state then (c, nbits, true)
    else
      octetLoop until_ tms tdo tdi todo (i + 1) (nbits - 1)
        (c.advance (tms.getLsbD i) (tdo.getLsbD i) (tdi.getLsbD i))

/-- The octets at `p`, `p + 1` and so on; every round takes a bit. -/
def bufLoop (until_ : Option JtagState) (b : Buf) :
    ℕ → ℕ → ℕ → JtagDumpCtx → JtagDumpCtx × ℕ
  | 0, _, nbits, c => (c, nbits)
  | rounds + 1, p, nbits, c =>
    if nbits > 0 then
      match octetLoop until_ (b.tmsb p) (b.tdob p) (b.tdib p) (if nbits < 8 then nbits else 8) 0
          nbits c with
      | (c, nbits, true) => (c, nbits)
      | (c, nbits, false) => bufLoop until_ b rounds (p + 1) nbits c
    else (c, 0)

def processBuf (until_ : Option JtagState) (b : Buf) (c : JtagDumpCtx) : JtagDumpCtx × ℕ :=
  bufLoop until_ b (b.nbits + 1) 0 b.nbits c

/-- The bits of TMS, TDO and TDI at position `i`. -/
def Buf.bit (b : Buf) (i : ℕ) : Bool × Bool × Bool :=
  (memBit b.tmsb i, memBit b.tdob i, memBit b.tdib i)

def Buf.bits (b : Buf) : List (Bool × Bool × Bool) := (List.range b.nbits).map b.bit

def clock (c : JtagDumpCtx) (x : Bool × Bool × Bool) : JtagDumpCtx := c.advance x.1 x.2.1 x.2.2

theorem octetLoop_eq (tms tdo tdi : Byte) (todo i nbits : ℕ) (c : JtagDumpCtx) :
    octetLoop none tms tdo tdi todo i nbits c =
      (((List.range' i todo).map fun j => (tms.getLsbD j, tdo.getLsbD j, tdi.getLsbD j)).foldl
        clock c, nbits - todo, false) := by
  induction todo generalizing i nbits c with
  | zero => rfl
  | succ todo ih =>
    rw [octetLoop, if_neg (by simp), ih, List.range'_succ, List.map_cons, List.foldl_cons,
      Nat.sub_sub, Nat.add_comm 1 todo]
    rfl

theorem bit_octet (b : Buf) (p : ℕ) {j : ℕ} (hj : j < 8) :
    b.bit (8 * p + j) = ((b.tmsb p).getLsbD j, (b.tdob p).getLsbD j, (b.tdib p).getLsbD j) := by
  have hdiv : (8 * p + j) / 8 = p := by omega
  have hmod : (8 * p + j) % 8 = j := by omega
  simp [Buf.bit, memBit, hdiv, hmod]

/-- A call without `until` clocks all bits. -/
theorem bufLoop_eq (b : Buf) (rounds p nbits : ℕ) (c : JtagDumpCtx) (h : nbits < rounds) :
    bufLoop none b rounds p nbits c =
      (((List.range' (8 * p) nbits).map b.bit).foldl clock c, 0) := by
  induction rounds generalizing p nbits c with
  | zero => omega
  | succ rounds ih =>
    rw [bufLoop]
    by_cases hpos : nbits > 0
    · obtain ⟨k, hk⟩ : ∃ k, k = if nbits < 8 then nbits else 8 := ⟨_, rfl⟩
      have hk8 : k ≤ nbits ∧ k ≤ 8 ∧ 0 < k ∧ (k = 8 ∨ nbits = k) := by
        split_ifs at hk <;> omega
      have hoctet : ((List.range' 0 k).map fun j =>
            ((b.tmsb p).getLsbD j, (b.tdob p).getLsbD j, (b.tdib p).getLsbD j)) =
          (List.range' (8 * p) k).map b.bit := by
        rw [List.range'_eq_map_range, List.range'_eq_map_range, List.map_map, List.map_map]
        apply List.map_congr_left
        intro j hj
        have := List.mem_range.mp hj
        simp only [Function.comp_apply, Nat.zero_add]
        exact (bit_octet b p (by omega)).symm
      have hsplit : List.range' (8 * p) nbits =
          List.range' (8 * p) k ++ List.range' (8 * (p + 1)) (nbits - k) := by
        rcases hk8.2.2.2 with rfl | rfl
        · rw [show 8 * (p + 1) = 8 * p + 8 by ring, List.range'_append_1]
          congr 1
          omega
        · simp
      rw [if_pos hpos, ← hk, octetLoop_eq, hoctet]
      simp only
      rw [ih (p + 1) (nbits - k) _ (by omega), hsplit, List.map_append, List.foldl_append]
    · obtain rfl : nbits = 0 := by omega
      rfl

theorem processBuf_eq (b : Buf) (c : JtagDumpCtx) :
    processBuf none b c = (b.bits.foldl clock c, 0) := by
  rw [processBuf, bufLoop_eq b _ 0 _ c (by omega), Buf.bits, List.range_eq_range']

/-- The context after some calls, from its construction. -/
def afterBufs (bufs : List Buf) : JtagDumpCtx :=
  bufs.foldl (fun c b => (processBuf none b c).1) init

theorem afterBufs_eq (bufs : List Buf) :
    afterBufs bufs = (bufs.flatMap Buf.bits).foldl clock init := by
  unfold afterBufs
  simp only [processBuf_eq]
  generalize init = c
  induction bufs generalizing c with
  | nil => rfl
  | cons b bufs ih => rw [List.foldl_cons, ih, List.flatMap_cons, List.foldl_append]

/-- The buffers of a vector that is passed on in parts, with the octet that each part starts at. -/
def cut (b : Buf) : ℕ → List ℕ → List Buf
  | _, [] => []
  | p, n :: sizes =>
    { nbits := n
      tmsb := fun i => b.tmsb (p + i)
      tdob := fun i => b.tdob (p + i)
      tdib := fun i => b.tdib (p + i) } :: cut b (p + n / 8) sizes

/-- The parts but the last one are whole octets. -/
def WholeOctets (sizes : List ℕ) : Prop := ∀ n ∈ sizes.dropLast, n % 8 = 0

theorem cut_bits (b : Buf) (p : ℕ) (sizes : List ℕ) (h : WholeOctets sizes) :
    (cut b p sizes).flatMap Buf.bits = (List.range' (8 * p) sizes.sum).map b.bit := by
  induction sizes generalizing p with
  | nil => rfl
  | cons n sizes ih =>
    have hhead : (Buf.mk n (fun i => b.tmsb (p + i)) (fun i => b.tdob (p + i))
        fun i => b.tdib (p + i)).bits = (List.range' (8 * p) n).map b.bit := by
      rw [Buf.bits, List.range'_eq_map_range, List.map_map]
      apply List.map_congr_left
      intro i _
      have hdiv : (8 * p + i) / 8 = p + i / 8 := by omega
      have hmod : (8 * p + i) % 8 = i % 8 := by omega
      simp [Buf.bit, memBit, hdiv, hmod]
    have htail : WholeOctets sizes := by
      intro m hm
      cases sizes with
      | nil => cases hm
      | cons k sizes => exact h m (List.mem_cons_of_mem _ hm)
    have hstart : sizes = [] ∨ 8 * (p + n / 8) = 8 * p + n := by
      cases sizes with
      | nil => exact .inl rfl
      | cons k sizes =>
        have := h n (by simp)
        exact .inr (by omega)
    rw [cut, List.flatMap_cons, hhead, ih _ htail, List.sum_cons]
    rcases hstart with rfl | hstart
    · simp
    · rw [hstart, ← List.map_append, List.range'_append_1]

end JtagDumpCtx

def JtagState.tap : JtagState → TapState
  | .testLogicReset => .testLogicReset
  | .runTestIdle => .runTestIdle
  | .selectDRScan => .scan .dr .select
  | .captureDR => .scan .dr .capture
  | .shiftDR => .scan .dr .shift
  | .exit1DR => .scan .dr .exit1
  | .pauseDR => .scan .dr .pause
  | .exit2DR => .scan .dr .exit2
  | .updateDR => .scan .dr .update
  | .selectIRScan => .scan .ir .select
  | .captureIR => .scan .ir .capture
  | .shiftIR => .scan .ir .shift
  | .exit1IR => .scan .ir .exit1
  | .pauseIR => .scan .ir .pause
  | .exit2IR => .scan .ir .exit2
  | .updateIR => .scan .ir .update

namespace JtagDumpCtx

theorem advance_state (c : JtagDumpCtx) (tms tdo tdi : Bool) :
    (c.advance tms tdo tdi).state.tap = c.state.tap.next tms := by
  obtain ⟨iri, dri, iro, dro, state⟩ := c
  cases state <;> cases tms <;> rfl

theorem advance_registers (c : JtagDumpCtx) (tms tdo tdi : Bool) :
    (c.advance tms tdo tdi).iro = (if c.state.tap = .scan .ir .capture then .clear
      else if c.state.tap = .scan .ir .shift then c.iro.addBit tdo else c.iro) ∧
    (c.advance tms tdo tdi).iri = (if c.state.tap = .scan .ir .capture then .clear
      else if c.state.tap = .scan .ir .shift then c.iri.addBit tdi else c.iri) ∧
    (c.advance tms tdo tdi).dro = (if c.state.tap = .scan .dr .capture then .clear
      else if c.state.tap = .scan .dr .shift then c.dro.addBit tdo else c.dro) ∧
    (c.advance tms tdo tdi).dri = (if c.state.tap = .scan .dr .capture then .clear
      else if c.state.tap = .scan .dr .shift then c.dri.addBit tdi else c.dri) := by
  obtain ⟨iri, dri, iro, dro, state⟩ := c
  cases state <;> cases tms <;> exact ⟨rfl, rfl, rfl, rfl⟩

theorem ofBits_scanned {α : Type} (reg : Scan) (l : List (TapState × α)) (f : α → Bool)
    (t : TapState) (a : α) :
    (if t = .scan reg .capture then JtagRegType.clear
      else if t = .scan reg .shift then (JtagRegType.ofBits ((scanned reg l).map f)).addBit (f a)
      else .ofBits ((scanned reg l).map f)) =
      .ofBits ((scanned reg (l ++ [(t, a)])).map f) := by
  rw [JtagTapFsm.scanned_append]
  split_ifs
  · rfl
  · simp
  · rfl

/-- The states and the bits of a run of the TAP's state machine. -/
def clocked (xs : List (Bool × Bool × Bool)) : List (TapState × Bool × Bool) :=
  clockedFrom .testLogicReset xs

/-- The context is where the state machine is, and has the bits of the scans. -/
structure Tracks (xs : List (Bool × Bool × Bool)) (c : JtagDumpCtx) : Prop where
  state : c.state.tap = (xs.map Prod.fst).foldl TapState.next .testLogicReset
  iro : c.iro = .ofBits ((scanned .ir (clocked xs)).map Prod.fst)
  iri : c.iri = .ofBits ((scanned .ir (clocked xs)).map Prod.snd)
  dro : c.dro = .ofBits ((scanned .dr (clocked xs)).map Prod.fst)
  dri : c.dri = .ofBits ((scanned .dr (clocked xs)).map Prod.snd)

theorem tracks_foldl (xs : List (Bool × Bool × Bool)) : Tracks xs (xs.foldl clock init) := by
  induction xs using List.reverseRecOn with
  | nil => exact ⟨rfl, rfl, rfl, rfl, rfl⟩
  | append_singleton xs x ih =>
    obtain ⟨tms, tdo, tdi⟩ := x
    obtain ⟨h1, h2, h3, h4⟩ := advance_registers (xs.foldl clock init) tms tdo tdi
    have hclk : clocked (xs ++ [(tms, tdo, tdi)]) =
        clocked xs ++ [((xs.foldl clock init).state.tap, tdo, tdi)] := by
      rw [clocked, JtagTapFsm.clockedFrom_append, ih.state]
      rfl
    rw [List.foldl_append, List.foldl_cons, List.foldl_nil]
    constructor
    · rw [clock, advance_state, ih.state, List.map_append, List.foldl_append]
      rfl
    · rw [clock, h1, hclk, ih.iro]
      exact ofBits_scanned .ir _ Prod.fst _ (tdo, tdi)
    · rw [clock, h2, hclk, ih.iri]
      exact ofBits_scanned .ir _ Prod.snd _ (tdo, tdi)
    · rw [clock, h3, hclk, ih.dro]
      exact ofBits_scanned .dr _ Prod.fst _ (tdo, tdi)
    · rw [clock, h4, hclk, ih.dri]
      exact ofBits_scanned .dr _ Prod.snd _ (tdo, tdi)

open Jtag2BSCAN JtagTapIR ShiftRegister BitList

/-- The TMS and TDI bits at the rising edges. -/
def risingBits (es : List Edge) : List (Bool × Bool) :=
  (es.filter Edge.rising).map fun e => (e.tms, e.tdi)

theorem tapState_eq (es : List Edge) :
    tapState es = ((risingBits es).map Prod.fst).foldl TapState.next .testLogicReset := by
  induction es using List.reverseRecOn with
  | nil => rfl
  | append_singleton es e ih =>
    cases he : e.rising with
    | false => simp [tapState_falling he, ih, risingBits, he]
    | true => simp [tapState_rising he, ih, risingBits, he]

variable {L : ℕ} (g : Generics L)

theorem observe_eq (es : List Edge) :
    ((observe g es).map fun (t, s) => (t, s.tdi)) =
      clockedFrom .testLogicReset (risingBits es) := by
  induction es using List.reverseRecOn with
  | nil => rfl
  | append_singleton es e ih =>
    cases he : e.rising with
    | false =>
      rw [observe_falling g he, ih]
      simp [risingBits, he]
    | true =>
      have hbits : risingBits (es ++ [e]) = risingBits es ++ [(e.tms, e.tdi)] := by
        simp [risingBits, he]
      rw [observe_rising g he, List.map_append, ih, hbits, JtagTapFsm.clockedFrom_append,
        ← tapState_eq]
      rfl

theorem loaded_eq {es : List Edge} {e : Edge} (halt : Alternating es) (he : e.rising = false)
    (ht : tapState es = .scan .ir .update) {sent : List Bool}
    (hsent : scanned .ir (clockedFrom .testLogicReset (risingBits es)) = sent)
    (hL : L ≤ sent.length) :
    bitsOf (after g (es ++ [e])).rn.ir = sent.drop (sent.length - L) := by
  have hir : (after g (es ++ [e])).rn.ir = (after g es).rp.shiftIr := by
    rw [after_append, edge_falling he]
    simp only [rnin_ir g (after_fsm g es), ht]
    rfl
  rcases Nat.eq_zero_or_pos L with rfl | hpos
  · simp [bitsOf]
  · have hin : (tapState es).inScan .ir = true := by
      rw [ht]
      decide
    have hwindow := (transfer_ir (g := g) hpos halt hin).window.bitsOf_eq
    rw [← JtagTapFsm.scanned_map, observe_eq, hsent] at hwindow
    rw [hir, hwindow, List.drop_append, bitsOf_length,
      List.drop_eq_nil_of_le (by rw [bitsOf_length]; exact hL), List.nil_append]

theorem toNat_eq_value (v : BitVec L) : v.toNat = value (bitsOf v) := by
  rw [toNat_eq_value_iff v _ (by simp)]
  intro i hi
  rw [bitsOf_getD v hi]

/-- After any calls of `processBuf` the sniffer is in the state that the TAP's state machine
reaches from Test-Logic-Reset, its registers have the bits of the scans under way, and how a
vector is cut into calls makes no difference. Where `L` to 31 bits were sent before Update-IR, the
top `L` of them are the instruction that the TAP loads. -/
theorem sniffer_tracks (bufs : List Buf) :
    (((bufs.flatMap Buf.bits).map Prod.fst).foldl JtagTapFsm.Reg.next .init =
      (afterBufs bufs).state.tap.encode) ∧
    Tracks (bufs.flatMap Buf.bits) (afterBufs bufs) ∧
    (∀ (whole : Buf) (sizes : List ℕ), WholeOctets sizes → sizes.sum = whole.nbits →
      afterBufs (bufs ++ cut whole 0 sizes) = afterBufs (bufs ++ [whole])) ∧
    ∀ (L : ℕ) (g : Generics L) (es : List Edge) (e : Edge), Alternating es → e.rising = false →
      risingBits es = ((bufs.flatMap Buf.bits).map fun x => (x.1, x.2.1)) →
      (afterBufs bufs).state = .updateIR →
      ∀ n, n = (scanned .ir (clocked (bufs.flatMap Buf.bits))).length → L ≤ n → n ≤ 31 →
      ∃ sent, (afterBufs bufs).iro.number = some sent ∧
        sent / 2 ^ (n - L) = (after g (es ++ [e])).rn.ir.toNat := by
  have htracks : Tracks (bufs.flatMap Buf.bits) (afterBufs bufs) := by
    rw [afterBufs_eq]
    exact tracks_foldl _
  refine ⟨?_, htracks, ?_, ?_⟩
  · rw [htracks.state]
    exact JtagTapFsm.foldl_next .testLogicReset _
  -- the state is a fold over the bits, so only their sequence counts
  · intro whole sizes hsizes hsum
    have hcut := cut_bits whole 0 sizes hsizes
    rw [hsum, Nat.mul_zero, ← List.range_eq_range'] at hcut
    rw [afterBufs_eq, afterBufs_eq, List.flatMap_append, List.flatMap_append, hcut]
    simp [Buf.bits]
  -- the same clocks at a TAP: its IR holds the last bits of what the sniffer has recorded
  · intro L g es e halt he hbits hstate n hn hL hn31
    have hclocked : clockedFrom .testLogicReset (risingBits es) =
        (clocked (bufs.flatMap Buf.bits)).map fun (t, x) => (t, x.1) := by
      rw [hbits, clocked, ← JtagTapFsm.clockedFrom_map]
    have ht : tapState es = .scan .ir .update := by
      rw [tapState_eq, hbits, List.map_map]
      have hmap : (Prod.fst ∘ fun x : Bool × Bool × Bool => (x.1, x.2.1)) = Prod.fst := rfl
      rw [hmap, ← htracks.state, hstate]
      rfl
    have hsent : scanned .ir (clockedFrom .testLogicReset (risingBits es)) =
        (scanned .ir (clocked (bufs.flatMap Buf.bits))).map Prod.fst := by
      rw [hclocked, JtagTapFsm.scanned_map]
    generalize hs : (scanned .ir (clocked (bufs.flatMap Buf.bits))).map Prod.fst = sent at hsent
    have hlen : sent.length = n := by rw [← hs, List.length_map, hn]
    -- up to 31 bits nothing is recorded wrongly
    have hrecords : JtagRegType.Records sent := by
      rw [JtagRegType.records_iff]
      refine ⟨by omega, ?_⟩
      intro i hi
      have hlt : i < sent.length := by
        by_contra hge
        rw [List.getD_eq_default _ _ (by omega)] at hi
        cases hi
      omega
    refine ⟨value sent, ?_, ?_⟩
    · rw [htracks.iro, hs]
      exact hrecords.2
    · rw [← hlen, ← value_drop _ _ (by omega), toNat_eq_value,
        loaded_eq g halt he ht hsent (by omega)]

/-- USER is shifted into a TAP with an instruction register of six bits. -/
theorem sniffer_tracks_user :
    let scan : Buf := ⟨12, memOf [0x06, 0x0c], memOf [0x40, 0x00], memOf [0x00, 0x00]⟩
    let es := scan.bits.flatMap fun x => [⟨true, x.1, x.2.1, false⟩, ⟨false, x.1, x.2.1, false⟩]
    ∃ sent, (afterBufs [scan]).iro.number = some sent ∧
      sent / 2 ^ (6 - 6) = (after .default (es ++ [⟨false, false, false, false⟩])).rn.ir.toNat := by
  intro scan es
  have h := (sniffer_tracks [scan]).2.2.2 6 .default es ⟨false, false, false, false⟩
  exact h (by decide) rfl (by decide) (by decide) 6 (by decide) le_rfl (by omega)

end JtagDumpCtx

end XvcSupport
