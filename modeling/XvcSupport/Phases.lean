import XvcSupport.Task

namespace XvcSupport.AxisToJtagCore

open AxisToJtag JtagSerDesCore

variable {W : ℕ}

/-- The phases.  `align` and `discard` carry the number of payload words accepted, and
`discard` whether the core is ready for more; `final` has the last TDO word on offer.  The
`abort` phases follow a `TLAST` on a TMS word; in `doomed` such a `TLAST` is still to come but
nothing is outstanding any more. -/
inductive Phase
  | idle
  | getTms (c : ℕ)
  | getTdi (c : ℕ)
  | shift (c : ℕ)
  | drain
  | align (a nBits : ℕ) (tLast : Bool)
  | discard (a : ℕ) (ready : Bool)
  | final
  | abort
  | abortWait
  | doomed
deriving DecidableEq

def Phase.passes : Phase → Bool
  | .align .. | .discard .. => false
  | _ => true

/-- A word is taken over from the serializer, when words may go out. -/
def takesOver (full rdy oValid : Bool) : Bool := oValid && (!full || rdy)

def fills (full rdy oValid : Bool) : Bool := takesOver full rdy oValid || (full && !rdy)

variable (t : Task W) (tap : Tap)

namespace Phase

/-- The number of pairs handed to the serializer, short of the one on offer. -/
def handed : Phase → ℕ
  | getTms c | getTdi c | shift c => c
  | _ => t.count

def accepted : Phase → ℕ
  | idle => 0
  | getTms c => 2 * c
  | getTdi c => 2 * c + 1
  | shift c => 2 * c + 2
  | drain => 2 * t.count
  | align a .. | discard a _ => a
  | final | abort | abortWait => t.payload.length
  | doomed => 2 * t.count

/-- The step of the core after `o` words from the serializer. -/
def next (o : ℕ) (full valid rdy iReady oValid : Bool) : Phase → Phase
  | idle => idle
  | getTms c =>
    if valid then
      if t.payload.length = 2 * c + 1 then if c = 0 then idle else abort else getTdi c
    else if t.payload.length = 2 * c + 1 ∧ c ≠ 0 ∧ o + (takesOver full rdy oValid).toNat = c then
      doomed
    else getTms c
  | getTdi c => if valid then shift c else getTdi c
  | shift c => if iReady then if t.Last c then drain else getTms (c + 1) else shift c
  | drain =>
    if takesOver full rdy oValid ∧ o + 1 = t.count then
      align (2 * t.count) (t.job.numBits (t.count - 1) - 1) false
    else drain
  | align a nBits tLast =>
    if nBits = W - 1 then if rdy then discard a false else align a nBits true
    else align a (nBits + 1) tLast
  | discard a ready =>
    if a = t.payload.length then final
    else if ready && valid then
      if a + 1 = t.payload.length then final else discard (a + 1) true
    else discard a true
  | final => if rdy then idle else final
  | abort =>
    if o = t.count then final
    else if oValid then align t.payload.length (W - 1) true else abortWait
  | abortWait => if oValid then align t.payload.length (W - 1) true else abortWait
  | doomed => doomed

end Phase

/-- The word in the register is the last one taken over. -/
def Keeps (o : ℕ) (full : Bool) (tdo : BitVec W) : Prop :=
  full = true → 1 ≤ o ∧ tdo = t.tdoWord tap (o - 1)

/-- The registers of the core in a phase, after `o` TDO words. -/
inductive CoreAt : Phase → ℕ → Bool → Reg W → Prop
  | idle {o : ℕ} {tdi tms tdo : BitVec W} {nBits : ℕ} {nBitsTot : BitVec 20}
      {sReady tdoPass last tLastSeen tLast : Bool} {iCnt oCnt : BitVec 2} :
      CoreAt .idle o false
        ⟨.idle, tdi, tms, tdo, nBits, nBitsTot, false, sReady, false, tdoPass, last, tLastSeen,
          iCnt, oCnt, tLast, false⟩
  | getTms {c o : ℕ} {full running : Bool} {tdi tms tdo : BitVec W} {nBits : ℕ}
      {nBitsTot : BitVec 20} (hc : c * W < t.total) (hl : 2 * c < t.payload.length)
      (hrun : running = decide (0 < c))
      (htot : nBitsTot.toNat = t.len.toNat - c * W)
      (hend : t.payload.length = 2 * c + 1 → o < c ∨ c = 0)
      (htdo : Keeps t tap o full tdo) :
      CoreAt (.getTms c) o full
        ⟨.getTms, tdi, tms, tdo, nBits, nBitsTot, false, true, full, true, false, false,
          BitVec.ofNat 2 c, BitVec.ofNat 2 o, false, running⟩
  | getTdi {c o : ℕ} {full last : Bool} {tdi tdo : BitVec W} {nBits : ℕ} {nBitsTot : BitVec 20}
      (hc : c < t.count) (hbits : nBits + 1 = t.job.numBits c)
      (hlast : last = decide (t.total ≤ (c + 1) * W))
      (htot : (c + 1) * W < t.total → nBitsTot.toNat = t.len.toNat - (c + 1) * W)
      (htdo : Keeps t tap o full tdo) :
      CoreAt (.getTdi c) o full
        ⟨.getTdi, tdi, (t.job.word c).1, tdo, nBits, nBitsTot, false, true, full, true, last,
          false, BitVec.ofNat 2 (c + 1), BitVec.ofNat 2 o, false, true⟩
  | shift {c o : ℕ} {full last tLastSeen : Bool} {tdo : BitVec W} {nBits : ℕ}
      {nBitsTot : BitVec 20} (hc : c < t.count) (hbits : nBits + 1 = t.job.numBits c)
      (hlast : last = decide (t.Last c))
      (hseen : tLastSeen = decide (t.payload.length = 2 * c + 2))
      (htot : ¬ t.Last c → nBitsTot.toNat = t.len.toNat - (c + 1) * W)
      (htdo : Keeps t tap o full tdo) :
      CoreAt (.shift c) o full
        ⟨.shift, (t.job.word c).2, (t.job.word c).1, tdo, nBits, nBitsTot, true, false, full, true,
          last, tLastSeen, BitVec.ofNat 2 (c + 1), BitVec.ofNat 2 o, false, true⟩
  | drain {o : ℕ} {full tLastSeen : Bool} {tdi tms tdo : BitVec W} {nBits : ℕ}
      {nBitsTot : BitVec 20} (ho : o < t.count)
      (hbits : nBits + 1 = t.job.numBits (t.count - 1))
      (hseen : tLastSeen = decide (2 * t.count = t.payload.length))
      (htdo : Keeps t tap o full tdo) :
      CoreAt .drain o full
        ⟨.shift, tdi, tms, tdo, nBits, nBitsTot, false, false, full, true, true, tLastSeen,
          BitVec.ofNat 2 t.count, BitVec.ofNat 2 o, false, true⟩
  | align {a nBits : ℕ} {tLast : Bool} {tdi tms tdo : BitVec W} {nBitsTot : BitVec 20}
      {sReady tLastSeen : Bool} (hpos : 0 < t.count) (hlt : nBits < W)
      (hlast : tLast = true → nBits = W - 1)
      (hseen : tLastSeen = decide (a = t.payload.length))
      (ha : 2 * t.count ≤ a) (hle : a ≤ t.payload.length)
      (hready : sReady = true → a = t.payload.length)
      (htdo : tdo >>> (W - 1 - nBits) = t.tdoWord tap (t.count - 1)) :
      CoreAt (.align a nBits tLast) t.count true
        ⟨.align, tdi, tms, tdo, nBits, nBitsTot, false, sReady, true, false, true, tLastSeen,
          BitVec.ofNat 2 t.count, BitVec.ofNat 2 t.count, tLast, true⟩
  | discard {a : ℕ} {ready : Bool} {tdi tms tdo : BitVec W} {nBitsTot : BitVec 20}
      {sReady tLastSeen : Bool} (hpos : 0 < t.count)
      (hseen : tLastSeen = decide (a = t.payload.length)) (ha : 2 * t.count ≤ a)
      (hle : a ≤ t.payload.length)
      (hready : a ≠ t.payload.length → sReady = ready)
      (htdo : tdo = t.tdoWord tap (t.count - 1)) :
      CoreAt (.discard a ready) t.count true
        ⟨.discard, tdi, tms, tdo, W - 1, nBitsTot, false, sReady, true, false, true, tLastSeen,
          BitVec.ofNat 2 t.count, BitVec.ofNat 2 t.count, true, true⟩
  | final {state : StateType} {tdi tms tdo : BitVec W} {nBitsTot : BitVec 20} {sReady : Bool}
      (hpos : 0 < t.count) (hstate : state = .align ∨ state = .discard)
      (htdo : tdo = t.tdoWord tap (t.count - 1)) :
      CoreAt .final t.count true
        ⟨state, tdi, tms, tdo, W - 1, nBitsTot, false, sReady, true, true, true, true,
          BitVec.ofNat 2 t.count, BitVec.ofNat 2 t.count, true, true⟩
  | abort {o : ℕ} {full : Bool} {tdi tms tdo : BitVec W} {nBitsTot : BitVec 20}
      (hab : t.Aborts) (ho : o ≤ t.count) (hall : o = t.count → full = true)
      (htdo : Keeps t tap o full tdo) :
      CoreAt .abort o full
        ⟨.align, tdi, tms, tdo, W - 1, nBitsTot, false, true, full, true, true, true,
          BitVec.ofNat 2 t.count, BitVec.ofNat 2 o, false, true⟩
  | abortWait {state : StateType} {tdi tms tdo : BitVec W} {nBitsTot : BitVec 20}
      (hab : t.Aborts) (hstate : state = .align ∨ state = .discard) :
      CoreAt .abortWait (t.count - 1) false
        ⟨state, tdi, tms, tdo, W - 1, nBitsTot, false, true, false, true, true, true,
          BitVec.ofNat 2 t.count, BitVec.ofNat 2 (t.count - 1), true, true⟩
  | doomed {full : Bool} {tdi tms tdo : BitVec W} {nBits : ℕ} {nBitsTot : BitVec 20}
      (hab : t.Aborts) :
      CoreAt .doomed t.count full
        ⟨.getTms, tdi, tms, tdo, nBits, nBitsTot, false, true, full, true, false, false,
          BitVec.ofNat 2 t.count, BitVec.ofNat 2 t.count, false, true⟩

variable {t tap}

theorem Keeps.next {o : ℕ} {full rdy oValid : Bool} {tdo d : BitVec W}
    (h : Keeps t tap o full tdo)
    (hd : takesOver full rdy oValid = true → d = t.tdoWord tap o) :
    Keeps t tap (o + (takesOver full rdy oValid).toNat) (fills full rdy oValid)
      (if takesOver full rdy oValid then d else tdo) := by
  intro hf
  cases ho : takesOver full rdy oValid with
  | true => simpa using hd ho
  | false =>
    simp only [fills, ho, Bool.false_or, Bool.and_eq_true] at hf
    simpa using h hf.1

/-- The state machine leaves the word register alone. -/
def Reg.SameTdo (r v : Reg W) : Prop :=
  v.tdo = r.tdo ∧ v.tdoValid = r.tdoValid ∧ v.oCnt = r.oCnt

theorem Reg.output_pass {r v : Reg W} {rdy oValid : Bool} {d : BitVec W} (hp : r.tdoPass = true)
    (hl : r.tLast = false)
    (hno : takesOver r.tdoValid rdy oValid = true → r.last = true → r.oCnt + 1 ≠ r.iCnt)
    (hv : r.SameTdo v) :
    r.output v rdy oValid d =
      { v with
        tdo := if takesOver r.tdoValid rdy oValid then d else r.tdo
        tdoValid := fills r.tdoValid rdy oValid
        oCnt := r.oCnt + BitVec.ofNat 2 (takesOver r.tdoValid rdy oValid).toNat } := by
  obtain ⟨h1, h2, h3⟩ := hv
  have hno' : takesOver r.tdoValid rdy oValid = true →
      (r.last && (r.oCnt + 1 == r.iCnt)) = false := by
    intro ho
    cases hlast : r.last with
    | false => rfl
    | true => simpa using hno ho hlast
  cases v
  cases hov : oValid <;> cases hful : r.tdoValid <;> cases hrdy : rdy <;>
    simp_all [Reg.output, Reg.mAxisTdo, Reg.tdoReady, takesOver, fills]

theorem Reg.output_last {r v : Reg W} {rdy oValid : Bool} {d : BitVec W} (hp : r.tdoPass = true)
    (hl : r.tdoValid = true → r.tLast = false) (hlast : r.last = true)
    (hover : takesOver r.tdoValid rdy oValid = true) (hcnt : r.oCnt + 1 = r.iCnt) :
    r.output v rdy oValid d =
      { v with tdo := d, tdoValid := true, oCnt := r.iCnt, tdoPass := false, state := .align } := by
  cases v
  have hov : oValid = true ∧ (r.tdoValid = false ∨ rdy = true) := by
    simpa [takesOver] using hover
  obtain ⟨hv, hready⟩ := hov
  cases hful : r.tdoValid with
  | false => simp [Reg.output, Reg.mAxisTdo, Reg.tdoReady, hful, hv, hp, hlast, ← hcnt]
  | true =>
    have hrdy : rdy = true := by simpa [hful] using hready
    simp [Reg.output, Reg.mAxisTdo, Reg.tdoReady, hful, hv, hp, hlast, hl hful, hrdy, ← hcnt]

theorem ofNat_two_inj {i o : ℕ} (hle : o ≤ i) (hlt : i ≤ o + 3) :
    BitVec.ofNat 2 i = BitVec.ofNat 2 o ↔ i = o := by
  constructor
  · intro h
    have h2 := congrArg BitVec.toNat h
    simp only [BitVec.toNat_ofNat] at h2
    omega
  · intro h
    rw [h]

theorem ofNat_two_succ (i : ℕ) : BitVec.ofNat 2 i + 1 = BitVec.ofNat 2 (i + 1) := by
  rw [BitVec.ofNat_add]
  rfl

/-- The payload word `a` is on offer or nothing. -/
def Feeds (t : Task W) (a : ℕ) (m : Axis W) : Prop :=
  m.tValid = true → a < t.payload.length ∧ m.tData = t.payload.getD a 0 ∧
    m.tLast = decide (a + 1 = t.payload.length)

/-- The serializer offers word `o`, which was among the first `handed` pairs. -/
def Offers (t : Task W) (tap : Tap) (handed o : ℕ) (s : JtagSerDesCore.Reg W) : Prop :=
  s.oValid = true → o < handed ∧ s.dataOut >>> (W - t.job.numBits o) = t.tdoWord tap o

variable {o c : ℕ} {full : Bool} {r : Reg W} {m : Axis W} {rdy : Bool}
  {s : JtagSerDesCore.Reg W}

theorem Offers.oValid_eq_false (hs : Offers t tap c o s) (h : c ≤ o) : s.oValid = false := by
  by_contra hcon
  have hlt := (hs (by simpa using hcon)).1
  omega

theorem Offers.not_last (hs : Offers t tap c o s) (hge : c ≤ o + 2)
    (ho : takesOver full rdy s.oValid = true) :
    BitVec.ofNat 2 o + 1 ≠ BitVec.ofNat 2 (c + 1) := by
  simp only [takesOver, Bool.and_eq_true] at ho
  have hlt := (hs ho.1).1
  rw [ofNat_two_succ, Ne, Eq.comm, ofNat_two_inj (by omega) (by omega)]
  omega

theorem Offers.complete (hW : 0 < W) (hs : Offers t tap c o s) (hc : c * W < t.total)
    (hl : 2 * c ≤ t.payload.length) (ho : takesOver full rdy s.oValid = true) :
    s.dataOut = t.tdoWord tap o := by
  have hov : s.oValid = true := by
    simp only [takesOver, Bool.and_eq_true] at ho
    exact ho.1
  obtain ⟨hlt, hd⟩ := hs hov
  rw [t.numBits_full hW hlt hc hl, Nat.sub_self] at hd
  simpa using hd

theorem Offers.le_handed (hs : Offers t tap c o s) (hle : o ≤ c) :
    o + (takesOver full rdy s.oValid).toNat ≤ c := by
  cases ho : takesOver full rdy s.oValid with
  | false => simpa using hle
  | true =>
    simp only [takesOver, Bool.and_eq_true] at ho
    exact (hs ho.1).1

theorem CoreAt.next_getTms (hW : 0 < W) (hr : CoreAt t tap (.getTms c) o full r)
    (hle : o ≤ c) (hge : c ≤ o + 2) (hm : Feeds t (2 * c) m) (hs : Offers t tap c o s) :
    CoreAt t tap ((Phase.getTms c).next t o full m.tValid rdy s.iReady s.oValid)
      (o + (takesOver full rdy s.oValid).toNat) (fills full rdy s.oValid) (r.next m rdy s) := by
  cases hr with
  | @getTms _ _ _ running tdi tms tdo nBits nBitsTot hc hl hrun htot hend htdo =>
    have hd : takesOver full rdy s.oValid = true → s.dataOut = t.tdoWord tap o :=
      hs.complete hW hc hl.le
    have hk := htdo.next hd
    have hle' : o + (takesOver full rdy s.oValid).toNat ≤ c := hs.le_handed hle
    have hab : t.payload.length = 2 * c + 1 → c ≠ 0 → t.Aborts := by
      intro hlen h0
      have hcount := t.count_of_end hW hc hlen
      exact ⟨by omega, by omega, by rw [hcount]; exact hc⟩
    cases hv : m.tValid with
    | false =>
      rw [Reg.next, Reg.output_pass rfl rfl (by simp) (by simp [Reg.SameTdo, Reg.fsm, hv])]
      simp only [Reg.fsm, hv, Bool.and_false, Bool.false_eq_true, if_false, ← BitVec.ofNat_add,
        Phase.next]
      -- the last word is taken over while a `TLAST` on a TMS word is still to come
      by_cases hdoom : t.payload.length = 2 * c + 1 ∧ c ≠ 0 ∧
          o + (takesOver full rdy s.oValid).toNat = c
      · obtain ⟨hlen, h0, heq⟩ := hdoom
        rw [if_pos ⟨hlen, h0, heq⟩, heq, hrun, decide_eq_true (Nat.pos_of_ne_zero h0),
          ← t.count_of_end hW hc hlen]
        exact .doomed (hab hlen h0)
      · rw [if_neg hdoom]
        exact .getTms hc hl hrun htot (by omega) hk
    | true =>
      obtain ⟨-, hdata, hlast⟩ := hm hv
      by_cases hlen : t.payload.length = 2 * c + 1
      · rw [decide_eq_true hlen.symm] at hlast
        -- `TLAST` on a TMS word: nothing has been shifted yet, or the core has to break off
        by_cases h0 : c = 0
        · obtain rfl : c = 0 := h0
          obtain rfl : o = 0 := by omega
          have hful : full = false := by
            by_contra hcon
            have := (htdo (by simpa using hcon)).1
            omega
          have hov := hs.oValid_eq_false (by omega)
          simp only [hful, Phase.next, hlen, hov, if_true, takesOver, fills, Bool.false_and,
            Bool.or_false, Bool.toNat_false, Reg.next, Reg.fsm, Reg.output, Reg.mAxisTdo, hv, hlast,
            Bool.and_true, ne_eq, not_true_eq_false, if_false, Bool.false_eq_true, hrun]
          exact .idle
        · have hne : BitVec.ofNat 2 c ≠ BitVec.ofNat 2 o := by
            rw [Ne, ofNat_two_inj hle (by omega)]
            have := hend hlen
            omega
          have hcount := t.count_of_end hW hc hlen
          rw [Reg.next, Reg.output_pass rfl rfl (by simp)
            (by simp [Reg.SameTdo, Reg.fsm, hv, hlast, hne])]
          simp only [Reg.fsm, hv, hlast, hne, Bool.and_true, if_true, ← BitVec.ofNat_add,
            Phase.next, hlen, h0, if_false, ne_eq, not_false_eq_true]
          rw [hrun, decide_eq_true (by omega), ← hcount]
          refine .abort (hab hlen h0) (by omega) (fun hall => ?_) hk
          -- `oCnt` has caught up, so a word is taken over in this very cycle
          have hone : (takesOver full rdy s.oValid).toNat = 1 := by
            have := hend hlen
            have := Bool.toNat_le (takesOver full rdy s.oValid)
            omega
          rw [fills, Bool.toNat_eq_one.mp hone, Bool.true_or]
      · rw [decide_eq_false (fun h => hlen h.symm)] at hlast
        have hcount : c < t.count := (t.lt_count hW).mpr ⟨hc, by omega⟩
        have hbits := t.numBits_eq hW hcount
        have htotal : t.total = t.len.toNat + 1 := rfl
        have hsucc : (c + 1) * W = c * W + W := Nat.succ_mul c W
        by_cases hw : W ≤ nBitsTot.toNat
        · have hsub : (nBitsTot - BitVec.ofNat 20 W).toNat = nBitsTot.toNat - W := by
            have := nBitsTot.isLt
            rw [BitVec.toNat_sub, BitVec.toNat_ofNat]
            omega
          rw [Reg.next, Reg.output_pass rfl rfl (by simp)
            (by simp [Reg.SameTdo, Reg.fsm, hv, hlast, hw])]
          simp only [Reg.fsm, hv, hlast, hw, Bool.and_true, if_true, ← BitVec.ofNat_add,
            Phase.next, hlen, if_false, Bool.false_eq_true, ofNat_two_succ]
          rw [hdata]
          refine .getTdi hcount (by omega) (decide_eq_false ?_).symm ?_ hk <;> omega
        · rw [Reg.next, Reg.output_pass rfl rfl (by simp)
            (by simp [Reg.SameTdo, Reg.fsm, hv, hlast, hw])]
          simp only [Reg.fsm, hv, hlast, hw, Bool.and_true, if_true, ← BitVec.ofNat_add,
            Phase.next, hlen, if_false, Bool.false_eq_true, ofNat_two_succ]
          rw [hdata]
          refine .getTdi hcount (by omega) (decide_eq_true ?_).symm ?_ hk <;> omega

theorem CoreAt.next_getTdi (hW : 0 < W) (hr : CoreAt t tap (.getTdi c) o full r)
    (hge : c ≤ o + 2) (hm : Feeds t (2 * c + 1) m) (hs : Offers t tap c o s) :
    CoreAt t tap ((Phase.getTdi c).next t o full m.tValid rdy s.iReady s.oValid)
      (o + (takesOver full rdy s.oValid).toNat) (fills full rdy s.oValid) (r.next m rdy s) := by
  cases hr with
  | @getTdi _ _ _ last tdi tdo nBits nBitsTot hc hbits hlast htot htdo =>
    obtain ⟨hlt, hlen⟩ := (t.lt_count hW).mp hc
    have hd : takesOver full rdy s.oValid = true → s.dataOut = t.tdoWord tap o :=
      hs.complete hW hlt (by omega)
    have hk := htdo.next hd
    -- the word taken over now is not the last one: the pair of this TDI word is still to come
    have hno : takesOver full rdy s.oValid = true → last = true →
        BitVec.ofNat 2 o + 1 ≠ BitVec.ofNat 2 (c + 1) := fun ho _ => hs.not_last hge ho
    cases hv : m.tValid with
    | false =>
      rw [Reg.next, Reg.output_pass rfl rfl hno (by simp [Reg.SameTdo, Reg.fsm, hv])]
      simp only [Reg.fsm, hv, Bool.and_false, Bool.false_eq_true, if_false, ← BitVec.ofNat_add,
        Phase.next]
      exact .getTdi hc hbits hlast htot hk
    | true =>
      obtain ⟨-, hdata, hml⟩ := hm hv
      rw [Reg.next, Reg.output_pass rfl rfl hno
        (by simp only [Reg.SameTdo, Reg.fsm, hv]; split_ifs <;> simp)]
      cases hl : m.tLast with
      | false =>
        simp only [Reg.fsm, hv, hl, Bool.and_true, if_true, Bool.false_eq_true, if_false,
          ← BitVec.ofNat_add, Phase.next]
        rw [hdata]
        rw [hl, eq_comm, decide_eq_false_iff_not] at hml
        refine .shift hc hbits ?_ (decide_eq_false ?_).symm ?_ hk
        · rw [hlast, decide_eq_decide, Task.Last]
          omega
        · omega
        · intro hno
          exact htot (by unfold Task.Last at hno; omega)
      | true =>
        rw [hl, eq_comm, decide_eq_true_iff] at hml
        -- `TLAST` ends the frame with this pair, whether or not it was announced as the last one
        cases last with
        | false =>
          simp only [Reg.fsm, hv, hl, Bool.and_true, if_true, Bool.false_eq_true, if_false,
            ← BitVec.ofNat_add, Phase.next]
          rw [hdata]
          refine .shift hc hbits (decide_eq_true (Or.inr ?_)).symm (decide_eq_true ?_).symm
            (fun hno => absurd (Or.inr ?_) hno) hk <;> omega
        | true =>
          simp only [Reg.fsm, hv, hl, Bool.and_true, if_true, ← BitVec.ofNat_add, Phase.next]
          rw [hdata]
          refine .shift hc hbits (decide_eq_true (Or.inr ?_)).symm (decide_eq_true ?_).symm
            (fun hno => absurd (Or.inr ?_) hno) hk <;> omega

theorem CoreAt.next_shift (hW : 0 < W) (hr : CoreAt t tap (.shift c) o full r)
    (hle : o ≤ c) (hge : c ≤ o + 2) (hs : Offers t tap c o s) :
    CoreAt t tap ((Phase.shift c).next t o full m.tValid rdy s.iReady s.oValid)
      (o + (takesOver full rdy s.oValid).toNat) (fills full rdy s.oValid) (r.next m rdy s) := by
  cases hr with
  | @shift _ _ _ last tLastSeen tdo nBits nBitsTot hc hbits hlast hseen htot htdo =>
    obtain ⟨hlt, hlen⟩ := (t.lt_count hW).mp hc
    have hd : takesOver full rdy s.oValid = true → s.dataOut = t.tdoWord tap o :=
      hs.complete hW hlt (by omega)
    have hk := htdo.next hd
    have hle' : o + (takesOver full rdy s.oValid).toNat ≤ c := hs.le_handed hle
    have hno : takesOver full rdy s.oValid = true → last = true →
        BitVec.ofNat 2 o + 1 ≠ BitVec.ofNat 2 (c + 1) := fun ho _ => hs.not_last hge ho
    cases hi : s.iReady with
    | false =>
      rw [Reg.next, Reg.output_pass rfl rfl hno (by simp [Reg.SameTdo, Reg.fsm, hi])]
      simp only [Reg.fsm, hi, Bool.false_and, Bool.false_eq_true, if_false, ← BitVec.ofNat_add,
        Phase.next]
      exact .shift hc hbits hlast hseen htot hk
    | true =>
      rw [Reg.next, Reg.output_pass rfl rfl hno
        (by simp only [Reg.SameTdo, Reg.fsm, hi]; split_ifs <;> simp)]
      -- the serializer takes the pair: `DRAIN_S` after the last one, the next pair otherwise
      by_cases hl : t.Last c
      · have hK := ((t.last_iff hW hc).mp hl).1
        rw [decide_eq_true hl] at hlast
        simp only [Reg.fsm, hi, hlast, hl, Bool.and_true, if_true, ← BitVec.ofNat_add, Phase.next,
          hK]
        refine .drain (by omega) ?_ ?_ hk
        · rw [hbits, ← hK, Nat.add_sub_cancel]
        · rw [hseen, decide_eq_decide]
          omega
      · have htot' := htot hl
        rw [decide_eq_false hl] at hlast
        simp only [Reg.fsm, hi, hlast, hl, Bool.and_true, if_true, ← BitVec.ofNat_add, Phase.next,
          Bool.false_eq_true, if_false]
        unfold Task.Last at hl
        rw [hseen, decide_eq_false (by omega)]
        exact .getTms (by omega) (by omega) (decide_eq_true (by omega)).symm htot'
          (fun _ => Or.inl (by omega)) hk

theorem CoreAt.next_drain (hW : 0 < W) (hr : CoreAt t tap .drain o full r)
    (hge : t.count ≤ o + 2) (hs : Offers t tap t.count o s) :
    CoreAt t tap (Phase.drain.next t o full m.tValid rdy s.iReady s.oValid)
      (o + (takesOver full rdy s.oValid).toNat) (fills full rdy s.oValid) (r.next m rdy s) := by
  cases hr with
  | @drain _ _ tLastSeen tdi tms tdo nBits nBitsTot ho hbits hseen htdo =>
    obtain ⟨hlt, hlen⟩ := (t.lt_count (c := t.count - 1) hW).mp (by omega)
    have hW' := t.job.numBits_le (t.count - 1)
    -- either the last word is taken over in this cycle, or the core goes on waiting for it
    by_cases hcap : takesOver full rdy s.oValid = true ∧ o + 1 = t.count
    · obtain ⟨hover, hK⟩ := hcap
      have hov : s.oValid = true ∧ (full = false ∨ rdy = true) := by
        simpa [takesOver] using hover
      obtain ⟨-, hdata⟩ := hs hov.1
      have hfull : fills full rdy s.oValid = true := by rw [fills, hover, Bool.true_or]
      rw [Reg.next, Reg.output_last rfl (fun _ => rfl) rfl hover (by rw [ofNat_two_succ, hK]),
        hfull, hover, Bool.toNat_true, hK]
      simp only [Reg.fsm, Bool.and_false, Bool.false_eq_true, if_false, Phase.next, hover, hK,
        and_self, if_true]
      rw [show t.job.numBits (t.count - 1) - 1 = nBits by omega]
      refine .align (by omega) (by omega) (by simp) hseen le_rfl t.two_count_le (by simp) ?_
      rw [show W - 1 - nBits = W - t.job.numBits (t.count - 1) by omega]
      rw [show t.count - 1 = o by omega]
      exact hdata
    · have hd : takesOver full rdy s.oValid = true → s.dataOut = t.tdoWord tap o := by
        intro hover
        have hov : s.oValid = true := by
          simp only [takesOver, Bool.and_eq_true] at hover
          exact hover.1
        have hne : o + 1 ≠ t.count := fun h => hcap ⟨hover, h⟩
        have hs' : Offers t tap (t.count - 1) o s := fun h => ⟨by omega, (hs h).2⟩
        exact hs'.complete hW hlt (by omega) hover
      have hk := htdo.next hd
      have hno : takesOver full rdy s.oValid = true → true = true →
          BitVec.ofNat 2 o + 1 ≠ BitVec.ofNat 2 t.count := by
        intro hover _
        rw [ofNat_two_succ, Ne, Eq.comm, ofNat_two_inj (by omega) (by omega)]
        exact fun h => hcap ⟨hover, h.symm⟩
      have hlt' : o + (takesOver full rdy s.oValid).toNat < t.count := by
        cases hover : takesOver full rdy s.oValid with
        | false => simpa using ho
        | true =>
          have : o + 1 ≠ t.count := fun h => hcap ⟨hover, h⟩
          rw [Bool.toNat_true]
          omega
      rw [Reg.next, Reg.output_pass rfl rfl hno (by simp [Reg.SameTdo, Reg.fsm])]
      simp only [Reg.fsm, Bool.and_false, Bool.false_eq_true, if_false, ← BitVec.ofNat_add,
        Phase.next, hcap]
      exact .drain hlt' hbits hseen hk

theorem CoreAt.next_align {a nBits : ℕ} {tLast : Bool}
    (hr : CoreAt t tap (.align a nBits tLast) o full r) :
    CoreAt t tap ((Phase.align a nBits tLast).next t o full m.tValid rdy s.iReady s.oValid) o full
      (r.next m rdy s) := by
  cases hr with
  | @align _ _ _ tdi tms tdo nBitsTot sReady tLastSeen hpos hlt hlast hseen ha hle hready htdo =>
    -- aligned, the word waits for the receiver; until then it is shifted by one bit a cycle
    by_cases hn : nBits = W - 1
    · subst hn
      rw [Nat.sub_self] at htdo
      cases rdy with
      | false =>
        simp only [Reg.next, Reg.fsm, Reg.output, Reg.mAxisTdo, Reg.tdoReady, Phase.next,
          Bool.and_false, Bool.not_true, Bool.or_false, Bool.false_eq_true, if_false, if_true]
        exact .align hpos hlt (fun _ => rfl) hseen ha hle hready (by rw [Nat.sub_self]; exact htdo)
      | true =>
        simp only [Reg.next, Reg.fsm, Reg.output, Reg.mAxisTdo, Reg.tdoReady, Phase.next,
          Bool.and_false, Bool.and_true, Bool.not_true, Bool.or_false, Bool.false_eq_true, if_false,
          if_true]
        refine .discard hpos hseen ha hle (fun hne => ?_) (by simpa using htdo)
        by_contra hcon
        exact hne (hready (by simpa using hcon))
    · have hl : tLast = false := by
        by_contra hcon
        exact hn (hlast (by simpa using hcon))
      simp only [Reg.next, Reg.fsm, Reg.output, Reg.mAxisTdo, Reg.tdoReady, Phase.next, hn,
        Bool.and_false, Bool.false_and, Bool.not_true, Bool.or_false, Bool.false_eq_true, if_false]
      refine .align hpos (by omega) (by simp [hl]) hseen ha hle hready ?_
      rw [← BitVec.shiftRight_add, show 1 + (W - 1 - (nBits + 1)) = W - 1 - nBits by omega]
      exact htdo

/-- Surplus words are absorbed before the last TDO word is released. -/
theorem CoreAt.next_discard {a : ℕ} {ready : Bool} (hr : CoreAt t tap (.discard a ready) o full r)
    (hm : Feeds t a m) :
    CoreAt t tap ((Phase.discard a ready).next t o full m.tValid rdy s.iReady s.oValid) o full
      (r.next m rdy s) := by
  cases hr with
  | @discard _ _ tdi tms tdo nBitsTot sReady tLastSeen hpos hseen ha hle hready htdo =>
    -- the frame has ended already, ends with the word taken now, or goes on
    by_cases hend : a = t.payload.length
    · rw [decide_eq_true hend] at hseen
      simp only [Reg.next, Reg.fsm, Reg.output, Reg.mAxisTdo, Reg.tdoReady, Phase.next, hend, hseen,
        Bool.and_false, Bool.false_and, Bool.not_true, Bool.or_false, Bool.false_eq_true, if_false,
        if_true]
      exact .final hpos (Or.inr rfl) htdo
    · obtain rfl := hready hend
      rw [decide_eq_false hend] at hseen
      by_cases hacc : sReady = true ∧ m.tValid = true
      · obtain ⟨rfl, hv⟩ := hacc
        obtain ⟨hlt, -, hml⟩ := hm hv
        by_cases hl : a + 1 = t.payload.length
        · rw [decide_eq_true hl] at hml
          simp only [Reg.next, Reg.fsm, Reg.output, Reg.mAxisTdo, Reg.tdoReady, Phase.next, hend,
            hl, hseen, hv, hml, Bool.and_false, Bool.and_true, Bool.false_and, Bool.not_true,
            Bool.or_false, Bool.false_eq_true, if_false, if_true]
          exact .final hpos (Or.inr rfl) htdo
        · rw [decide_eq_false hl] at hml
          simp only [Reg.next, Reg.fsm, Reg.output, Reg.mAxisTdo, Reg.tdoReady, Phase.next, hend,
            hl, hseen, hv, hml, Bool.and_false, Bool.and_true, Bool.false_and, Bool.not_true,
            Bool.or_false, Bool.false_eq_true, if_false, if_true]
          exact .discard hpos (decide_eq_false hl).symm (by omega) (by omega) (fun _ => rfl) htdo
      · have hno : (sReady && m.tValid) = false := by
          simpa using hacc
        simp only [Reg.next, Reg.fsm, Reg.output, Reg.mAxisTdo, Reg.tdoReady, Phase.next, hend,
          hseen, hno, Bool.and_false, Bool.false_and, Bool.not_true,
          Bool.or_false, Bool.false_eq_true, if_false]
        exact .discard hpos (decide_eq_false hend).symm ha hle (fun _ => rfl) htdo

theorem CoreAt.next_final (hr : CoreAt t tap .final o full r) (hov : s.oValid = false) :
    CoreAt t tap (Phase.final.next t o full m.tValid rdy s.iReady s.oValid) o (full && !rdy)
      (r.next m rdy s) := by
  cases hr with
  | @final state tdi tms tdo nBitsTot sReady hpos hstate htdo =>
    cases rdy with
    | false =>
      rcases hstate with rfl | rfl <;>
        simp only [Reg.next, Reg.fsm, Reg.output, Reg.mAxisTdo, Phase.next, hov,
          Bool.and_false, Bool.false_and, Bool.not_false, Bool.and_true, Bool.false_eq_true,
          if_false, if_true]
      · exact .final hpos (Or.inl rfl) htdo
      · exact .final hpos (Or.inr rfl) htdo
    | true =>
      rcases hstate with rfl | rfl <;>
        simp only [Reg.next, Reg.fsm, Reg.output, Reg.mAxisTdo, Phase.next, hov,
          Bool.and_false, Bool.false_and, Bool.not_true, Bool.and_true, Bool.false_eq_true,
          if_false, if_true]
      · exact .idle
      · exact .idle

/-- After a `TLAST` on a TMS word things go well if the word before is out of the way and
one word is to come, or if the last word is there and stays for a cycle. -/
theorem CoreAt.next_abort (hW : 0 < W) (hr : CoreAt t tap .abort o full r)
    (hs : Offers t tap t.count o s)
    (hfine : (o = t.count ∧ rdy = false) ∨ (o + 1 = t.count ∧ (full = true → rdy = true))) :
    CoreAt t tap (Phase.abort.next t o full m.tValid rdy s.iReady s.oValid)
      (o + (takesOver full rdy s.oValid).toNat) (fills full rdy s.oValid) (r.next m rdy s) := by
  cases hr with
  | @abort _ _ tdi tms tdo nBitsTot hab ho hall htdo =>
    obtain ⟨hpos, hlen, hlt⟩ := id hab
    rcases hfine with ⟨rfl, rfl⟩ | ⟨hK, hrdy⟩
    · obtain rfl := hall rfl
      have hov := hs.oValid_eq_false (by omega)
      simp only [hov, Reg.next, Reg.fsm, Reg.output, Reg.mAxisTdo, Phase.next, takesOver, fills,
        Bool.false_and, Bool.and_false, Bool.false_or, Bool.not_false, Bool.and_true, if_true,
        Bool.false_eq_true, if_false, Bool.toNat_false, Nat.add_zero]
      exact .final hpos (Or.inl rfl) (htdo rfl).2
    · have hne : o ≠ t.count := by omega
      have hov : takesOver full rdy s.oValid = s.oValid := by
        cases full with
        | false => simp [takesOver]
        | true => simp [takesOver, hrdy rfl]
      have hfsm : ∃ state, (state = .align ∨ state = .discard) ∧
          Reg.fsm ⟨.align, tdi, tms, tdo, W - 1, nBitsTot, false, true, full, true, true, true,
            BitVec.ofNat 2 t.count, BitVec.ofNat 2 o, false, true⟩ m rdy s.iReady =
          ⟨state, tdi, tms, tdo, W - 1, nBitsTot, false, true, full, true, true, true,
            BitVec.ofNat 2 t.count, BitVec.ofNat 2 o, true, true⟩ := by
        cases full with
        | false => exact ⟨.align, Or.inl rfl, by simp [Reg.fsm]⟩
        | true => exact ⟨.discard, Or.inr rfl, by simp [Reg.fsm, hrdy rfl]⟩
      obtain ⟨state, hstate, hfsm⟩ := hfsm
      cases hv : s.oValid with
      | true =>
        rw [hv] at hov
        have hd := hs.complete hW hlt (by omega) (by rw [hv]; exact hov)
        rw [Reg.next, hfsm, hv, fills, hov,
          Reg.output_last rfl (fun _ => rfl) rfl hov (by rw [ofNat_two_succ, hK]),
          Bool.toNat_true, hK]
        simp only [Phase.next, hne, if_false, if_true, Bool.true_or]
        refine .align hpos (by omega) (fun _ => rfl) (decide_eq_true rfl).symm (by omega) le_rfl
          (fun _ => rfl) ?_
        rw [hd, Nat.sub_self, show t.count - 1 = o by omega]
        simp
      | false =>
        have hempty : (full && !rdy) = false := by
          cases full with
          | false => rfl
          | true => simp [hrdy rfl]
        rw [hv] at hov
        rw [Reg.next, hfsm, hv, Reg.output_pass rfl rfl (by simp [hov])
          (by simp [Reg.SameTdo])]
        simp only [Phase.next, hne, fills, hov, hempty, Bool.false_or, Bool.toNat_false,
          Nat.add_zero, Bool.false_eq_true, if_false, ← BitVec.ofNat_add]
        rw [show o = t.count - 1 by omega]
        exact .abortWait hab hstate

theorem CoreAt.next_abortWait (hW : 0 < W) (hr : CoreAt t tap .abortWait o full r)
    (hs : Offers t tap t.count o s) :
    CoreAt t tap (Phase.abortWait.next t o full m.tValid rdy s.iReady s.oValid)
      (o + (takesOver full rdy s.oValid).toNat) (fills full rdy s.oValid) (r.next m rdy s) := by
  cases hr with
  | @abortWait state tdi tms tdo nBitsTot hab hstate =>
    obtain ⟨hpos, hlen, hlt⟩ := id hab
    have hfsm : Reg.fsm ⟨state, tdi, tms, tdo, W - 1, nBitsTot, false, true, false, true, true,
          true, BitVec.ofNat 2 t.count, BitVec.ofNat 2 (t.count - 1), true, true⟩ m rdy s.iReady =
        ⟨state, tdi, tms, tdo, W - 1, nBitsTot, false, true, false, true, true, true,
          BitVec.ofNat 2 t.count, BitVec.ofNat 2 (t.count - 1), true, true⟩ := by
      rcases hstate with rfl | rfl <;> simp [Reg.fsm]
    cases hv : s.oValid with
    | true =>
      have hov : takesOver false rdy true = true := rfl
      have hd := hs.complete hW hlt (by omega) (by rw [hv]; exact hov)
      have hK : t.count - 1 + 1 = t.count := by omega
      rw [Reg.next, hfsm, hv, Reg.output_last rfl (by simp) rfl hov (by rw [ofNat_two_succ, hK])]
      simp only [Phase.next, fills, hov, if_true, Bool.true_or, Bool.toNat_true, hK]
      refine .align hpos (by omega) (fun _ => rfl) (decide_eq_true rfl).symm (by omega) le_rfl
        (fun _ => rfl) ?_
      rw [hd, Nat.sub_self]
      simp
    | false =>
      simp only [Reg.next, hfsm, hv, Reg.output, Reg.mAxisTdo, Phase.next, takesOver, fills,
        Bool.false_and, Bool.or_false, Bool.toNat_false, Nat.add_zero, Bool.false_eq_true, if_false]
      exact .abortWait hab hstate

theorem CoreAt.next_doomed (hr : CoreAt t tap .doomed o full r) (hv : m.tValid = false)
    (hov : s.oValid = false) :
    CoreAt t tap .doomed o (full && !rdy) (r.next m rdy s) := by
  cases hr with
  | doomed hab =>
    cases full <;> cases rdy <;>
      simp only [Reg.next, Reg.fsm, Reg.output, Reg.mAxisTdo, hv, hov, Bool.and_false,
        Bool.and_true, Bool.false_and, Bool.not_true, Bool.not_false, Bool.false_eq_true, if_false,
        if_true] <;>
      exact .doomed hab

/-- The condition under which a broken-off frame is brought to a proper end. -/
def Phase.Fine (t : Task W) (o : ℕ) (full valid rdy : Bool) : Phase → Prop
  | abort => (o = t.count ∧ rdy = false) ∨ (o + 1 = t.count ∧ (full = true → rdy = true))
  | doomed => valid = false
  | _ => True

theorem CoreAt.next {ph : Phase} (hW : 0 < W) (hr : CoreAt t tap ph o full r) (hne : ph ≠ .idle)
    (hle : o ≤ ph.handed t) (hge : ph.handed t ≤ o + 2) (hm : Feeds t (ph.accepted t) m)
    (hs : Offers t tap (ph.handed t) o s) (hfine : ph.Fine t o full m.tValid rdy) :
    CoreAt t tap (ph.next t o full m.tValid rdy s.iReady s.oValid)
      (o + (takesOver full (rdy && ph.passes) s.oValid).toNat)
      (fills full (rdy && ph.passes) s.oValid) (r.next m rdy s) := by
  cases ph with
  | idle => exact absurd rfl hne
  | getTms c => simpa [Phase.passes] using hr.next_getTms hW hle hge hm hs
  | getTdi c => simpa [Phase.passes] using hr.next_getTdi hW hge hm hs
  | shift c => simpa [Phase.passes] using hr.next_shift hW hle hge hs
  | drain => simpa [Phase.passes] using hr.next_drain hW hge hs
  | align a nBits tLast =>
    have hfull : full = true := by cases hr; rfl
    simpa [Phase.passes, takesOver, fills, hfull] using hr.next_align
  | discard a ready =>
    have hfull : full = true := by cases hr; rfl
    simpa [Phase.passes, takesOver, fills, hfull] using hr.next_discard hm
  | final =>
    have ho : t.count = o := by cases hr; rfl
    have hov := hs.oValid_eq_false ho.le
    simpa [Phase.passes, takesOver, fills, hov] using hr.next_final hov
  | abort => simpa [Phase.passes] using hr.next_abort hW hs hfine
  | abortWait => simpa [Phase.passes] using hr.next_abortWait hW hs
  | doomed =>
    have ho : t.count = o := by cases hr; rfl
    have hov := hs.oValid_eq_false ho.le
    simpa [Phase.passes, takesOver, fills, hov, Phase.next] using hr.next_doomed hfine hov

end XvcSupport.AxisToJtagCore
