import XvcSupport.RegisterDrivers
import XvcSupport.Reformat
import XvcSupport.BitLists

namespace XvcSupport

open JtagDriver RegisterDriver BitList

/-- A JTAG target: its TDO, and what it does, in one cycle of TCK with TMS and TDI. -/
abbrev Target (τ : Type) := τ → Bool → Bool → Bool × τ

variable {τ : Type}

def Target.shift (tgt : Target τ) : List (Bool × Bool) → τ → List Bool × τ
  | [], s => ([], s)
  | (tms, tdi) :: bits, s =>
    let (tdo, s) := tgt s tms tdi
    let (tdos, s) := Target.shift tgt bits s
    (tdo :: tdos, s)

theorem Target.shift_append (tgt : Target τ) (xs ys : List (Bool × Bool)) (s : τ) :
    tgt.shift (xs ++ ys) s =
      ((tgt.shift xs s).1 ++ (tgt.shift ys (tgt.shift xs s).2).1,
        (tgt.shift ys (tgt.shift xs s).2).2) := by
  induction xs generalizing s with
  | nil => rfl
  | cons x xs ih => simp [Target.shift, ih]

@[simp] theorem Target.shift_length (tgt : Target τ) (xs : List (Bool × Bool)) (s : τ) :
    (tgt.shift xs s).1.length = xs.length := by
  induction xs generalizing s with
  | nil => rfl
  | cons x xs ih => simp [Target.shift, ih]

/-- The `n` low bits of two words. -/
def wordBits (tms tdi : BitVec 32) (n : ℕ) : List (Bool × Bool) :=
  (List.range n).map fun i => (tms.getLsbD i, tdi.getLsbD i)

/-- The first `n` bits of two vectors. -/
def vectorBits (tms tdi : Mem) (n : ℕ) : List (Bool × Bool) :=
  (List.range n).map fun i => (memBit tms i, memBit tdi i)

theorem vectorBits_add (tms tdi : Mem) (m n : ℕ) : vectorBits tms tdi (m + n) =
    vectorBits tms tdi m ++
      (List.range n).map fun i => (memBit tms (m + i), memBit tdi (m + i)) := by
  simp [vectorBits, List.range_add, Function.comp_def]

section

variable (xid : Xid) {len : ℕ} (h1 : 1 ≤ len) (h2 : len ≤ 2 ^ 20)

include h1 h2

theorem getVrs_mkShift : getVrs (mkShift xid len) = pvers := by
  apply BitVec.eq_of_getLsbD_eq
  intro i hi
  have hmask : versMask.getLsbD i = decide (30 ≤ i) := by
    revert i
    decide
  rw [getVrs, BitVec.getLsbD_and, hmask]
  by_cases h30 : 30 ≤ i
  · have hxid : xid.getLsbD (i - 20) = false := BitVec.getLsbD_of_ge _ _ (by omega)
    have h28 : (i == 28) = false := by
      rw [beq_eq_false_iff_ne]
      omega
    rw [getLsbD_mkShift_high xid h1 h2 (by omega) hi, hxid, h28]
    simp [pvers]
  · simp [h30, pvers]

theorem getCmd_mkShift : getCmd (mkShift xid len) = cmdS := by
  apply BitVec.eq_of_getLsbD_eq
  intro i hi
  have hmask : cmdMask.getLsbD i = decide (i = 28 ∨ i = 29) := by
    revert i
    decide
  have hcmd : cmdS.getLsbD i = decide (i = 28) := by
    revert i
    decide
  rw [getCmd, BitVec.getLsbD_and, hmask, hcmd]
  by_cases h28 : i = 28 ∨ i = 29
  · have hxid : xid.getLsbD (i - 20) = false := BitVec.getLsbD_of_ge _ _ (by omega)
    rw [getLsbD_mkShift_high xid h1 h2 (by omega) hi, hxid]
    rcases h28 with rfl | rfl
    · rfl
    · rfl
  · have hne : i ≠ 28 := fun h => h28 (Or.inl h)
    rw [decide_eq_false h28, decide_eq_false hne, Bool.and_false]

theorem getLen_mkShift_server : JtagDriver.getLen (mkShift xid len) = .ok len := by
  have hmask := toNat_and_mask (mkShift xid len) (by decide : 20 ≤ 32)
  have hlen := getLen_mkShift xid h1 (by omega : len < 2 ^ 32)
  rw [AxisToJtagPkg.getLen] at hlen
  rw [JtagDriver.getLen, if_neg (by simp [getCmd_mkShift xid h1 h2]), lenShift,
    BitVec.ushiftRight_zero, show lenMask = BitVec.ofNat 32 (2 ^ 20 - 1) from rfl, hmask, hlen,
    Nat.mod_eq_of_lt (by omega)]
  congr 1
  omega

end

section

variable (d : Drv) (hws : d.wordSize = 4) (tms tdi : Mem) {bits : ℕ} (hb : bits < 2 ^ 32)

include hws hb

theorem shiftMsg_length_four :
    (d.shiftMsg bits tms tdi).length = 4 + 8 * ((bits + 31) / 32) := by
  rw [shiftMsg_length, bytesTot_eq_msgOctets (by omega) (by omega) hb, msgOctets, hws, bytesCeil]
  omega

theorem getw32_header : getw32 (d.shiftMsg bits tms tdi) 0 =
    Run.returned (mkShift (newXid d.xid) bits) := by
  have hlen := shiftMsg_length_four d hws tms tdi hb
  rw [getw32, if_pos (by omega), List.drop_zero]
  exact congrArg Run.returned (getHdr_shiftMsg d tms tdi (by omega) (by omega) hb)

theorem getw32_words {k : ℕ} (hk : 32 * k < bits) :
    ∃ v w, getw32 (d.shiftMsg bits tms tdi) (4 + 8 * k) = Run.returned v ∧
      getw32 (d.shiftMsg bits tms tdi) (4 + 8 * k + 4) = Run.returned w ∧
      ∀ n ≤ 32, 32 * k + n ≤ bits → wordBits v w n =
        (List.range n).map fun i => (memBit tms (32 * k + i), memBit tdi (32 * k + i)) := by
  have hlen := shiftMsg_length_four d hws tms tdi hb
  refine ⟨_, _, if_pos (by omega), if_pos (by omega), fun n hn hle => ?_⟩
  apply List.map_congr_left
  intro i hi
  have hi' := List.mem_range.mp hi
  have hdiv : (4 * k + i / 8) / 4 = k := by omega
  have hmod : (4 * k + i / 8) % 4 = i / 8 := by omega
  have hoctet := layout_octet tms tdi d.txBuf (mkShift (newXid d.xid) bits)
    (by omega : 1 ≤ d.wordSize) hb (k := 4 * k + i / 8) (by unfold bytesCeil; omega)
  have hbit : ∀ p, p + 4 ≤ (d.shiftMsg bits tms tdi).length →
      (packLE 32 (((d.shiftMsg bits tms tdi).drop p).take 4)).getLsbD i =
        (layout d.txBuf d.wordSize (mkShift (newXid d.xid) bits) bits tms tdi
          (p + i / 8)).getLsbD (i % 8) := by
    intro p hp
    have hlt : i / 8 < 4 := by omega
    rw [getLsbD_packLE _ (by omega), ← getD_shiftMsg d tms tdi
      (by rw [← shiftMsg_length d tms tdi]; omega)]
    simp [List.getD, hlt]
  rw [hbit _ (by omega), hbit _ (by omega)]
  rw [hws, hdiv, hmod] at hoctet
  have hmem : 32 * k + i = 8 * (4 * k + i / 8) + i % 8 := by omega
  have hmemdiv : (32 * k + i) / 8 = 4 * k + i / 8 := by omega
  have hmemmod : (32 * k + i) % 8 = i % 8 := by omega
  rw [memBit, memBit, hmemdiv, hmemmod, ← hoctet.1, ← hoctet.2, hws]

end

/-- Sampled bits, found in the low bits of a word; the others are zero if `clean`. -/
structure Sampled (clean : Prop) (w : BitVec 32) (n : ℕ) (tdos : List Bool) : Prop where
  bit : ∀ i < n, w.getLsbD i = tdos.getD i false
  pad : clean → ∀ i, n ≤ i → w.getLsbD i = false

/-- How one word is shifted into the target that a device shows through `view`; `ready nbits`
holds of a device for which `nbits` bits are left. -/
def Shifts {σ : Type} (tgt : Target τ) (view : σ → τ) (ready : ℕ → σ → Prop) (clean : Prop)
    (shift : Shift σ) : Prop :=
  ∀ (tms tdi : BitVec 32) (nbits l : ℕ) (t : Transfer σ), 0 < nbits → l = min nbits 32 →
    ready nbits t.dev →
    ∃ w s, shift tms tdi nbits l t = Run.returned (w, { t with dev := s }) ∧
      ready (nbits - l) s ∧ view s = (tgt.shift (wordBits tms tdi l) (view t.dev)).2 ∧
      Sampled clean w l (tgt.shift (wordBits tms tdi l) (view t.dev)).1

section

variable {σ : Type} {tgt : Target τ} {view : σ → τ} {ready : ℕ → σ → Prop} {clean : Prop}
  {shift : Shift σ} (tms tdi : Mem) (bits : ℕ) (t₀ : Transfer σ) (v : τ)

/-- The state of a transfer when `n` bits are shifted. -/
structure Executed (tgt : Target τ) (view : σ → τ) (clean : Prop) (tms tdi : Mem)
    (t₀ : Transfer σ) (v : τ) (n : ℕ) (t : Transfer σ) : Prop where
  hdbuf : t.hdbuf = t₀.hdbuf
  target : view t.dev = (tgt.shift (vectorBits tms tdi n) v).2
  tdo : ∀ i < n, memBit t.rxb i = (tgt.shift (vectorBits tms tdi n) v).1.getD i false
  pad : clean → ∀ i, n ≤ i → i < 8 * bytesCeil n → memBit t.rxb i = false
  outside : ∀ j, bytesCeil n ≤ j → t.rxb j = t₀.rxb j

/-- The invariant of the loop. -/
structure Going (tgt : Target τ) (view : σ → τ) (ready : ℕ → σ → Prop) (clean : Prop)
    (tms tdi : Mem) (bits : ℕ) (t₀ : Transfer σ) (v : τ) (a : Shifting σ) : Prop where
  le : a.nbits ≤ bits
  whole : a.nbits ≠ 0 → (bits - a.nbits) % 32 = 0
  l : a.nbits ≠ 0 → a.l = 32 ∧ a.lb = 4
  pi : a.nbits ≠ 0 → a.pi = 4 + 8 * ((bits - a.nbits) / 32)
  po : a.nbits ≠ 0 → a.po = 4 * ((bits - a.nbits) / 32)
  ready : ready a.nbits a.t.dev
  done : Executed tgt view clean tms tdi t₀ v (bits - a.nbits) a.t

variable {tms tdi bits t₀ v}

theorem memBit_memcpy_word (rxb : Mem) (m : ℕ) (w : BitVec 32) {n i : ℕ} (hn : n ≤ 4)
    (hi : i < 8 * n) :
    memBit (memcpy rxb (4 * m) (memOf (unpackLE 4 w)) 0 n) (32 * m + i) = w.getLsbD i := by
  have hdiv : (32 * m + i) / 8 = 4 * m + i / 8 := by omega
  have hmod : (32 * m + i) % 8 = i % 8 := by omega
  have hlt : i / 8 < 4 := by omega
  have hback : 8 * (i / 8) + i % 8 = i := by omega
  rw [memBit, hdiv, hmod, memcpy_inside (by omega), memOf,
    List.getD_eq_getElem _ _ (by simpa using hlt)]
  simp [unpackLE, hback, Nat.mod_lt]

theorem memBit_memcpy_before (rxb : Mem) (m : ℕ) (w : BitVec 32) (n : ℕ) {i : ℕ}
    (hi : i < 32 * m) :
    memBit (memcpy rxb (4 * m) (memOf (unpackLE 4 w)) 0 n) i = memBit rxb i := by
  rw [memBit, memcpy_outside (Or.inl (by omega)), memBit]

theorem Executed.step {m n : ℕ} {t : Transfer σ}
    (h : Executed tgt view clean tms tdi t₀ v (32 * m) t) (h1 : 1 ≤ n) (h32 : n ≤ 32)
    {w : BitVec 32} {s : σ} {bs : List (Bool × Bool)}
    (hbits : vectorBits tms tdi (32 * m + n) = vectorBits tms tdi (32 * m) ++ bs)
    (hview : view s = (tgt.shift bs (view t.dev)).2)
    (hw : Sampled clean w n (tgt.shift bs (view t.dev)).1) :
    Executed tgt view clean tms tdi t₀ v (32 * m + n)
      { t with
        rxb := memcpy t.rxb (4 * m) (memOf (unpackLE 4 w)) 0 ((n + 7) / 8)
        dev := s } where
  hdbuf := h.hdbuf
  target := by rw [hbits, Target.shift_append, ← h.target, ← hview]
  tdo := by
    intro i hi
    rw [hbits, Target.shift_append]
    have hlen : (tgt.shift (vectorBits tms tdi (32 * m)) v).1.length = 32 * m := by
      simp [vectorBits]
    by_cases hlt : i < 32 * m
    · rw [memBit_memcpy_before _ _ _ _ hlt, h.tdo i hlt,
        List.getD_append _ _ _ _ (by rw [hlen]; exact hlt)]
    · obtain ⟨k, rfl⟩ := Nat.exists_eq_add_of_le (Nat.not_lt.mp hlt)
      rw [memBit_memcpy_word _ _ _ (by omega) (by omega),
        List.getD_append_right _ _ _ _ (by rw [hlen]; omega), hlen, Nat.add_sub_cancel_left,
        ← h.target, hw.bit k (by omega)]
  pad := by
    intro hclean i hle hlt
    unfold bytesCeil at hlt
    obtain ⟨k, rfl⟩ := Nat.exists_eq_add_of_le (Nat.le_trans (Nat.le_add_right _ _) hle)
    rw [memBit_memcpy_word _ _ _ (by omega) (by omega), hw.pad hclean k (by omega)]
  outside := by
    intro j hj
    unfold bytesCeil at hj
    exact (memcpy_outside (Or.inr (by omega))).trans (h.outside j (by unfold bytesCeil; omega))

theorem Going.step {d : Drv} (hws : d.wordSize = 4) (hb : bits < 2 ^ 32)
    (hshift : Shifts tgt view ready clean shift) {a : Shifting σ}
    (ha : Going tgt view ready clean tms tdi bits t₀ v a) (hpos : 0 < a.nbits) :
    ∃ a', shiftWord shift (d.shiftMsg bits tms tdi) a = Run.returned a' ∧
      Going tgt view ready clean tms tdi bits t₀ v a' ∧ a'.nbits < a.nbits := by
  have hne : a.nbits ≠ 0 := by omega
  have hle := ha.le
  have hwhole := ha.whole hne
  have hm : bits - a.nbits = 32 * ((bits - a.nbits) / 32) := by omega
  obtain ⟨x, y, htms, htdi, hwords⟩ := getw32_words d hws tms tdi hb
    (k := (bits - a.nbits) / 32) (by omega)
  have hl : (if a.nbits < 8 * 4 then a.nbits else a.l) = min a.nbits 32 := by
    rw [(ha.l hne).1]
    split_ifs <;> omega
  have hlb : min (if a.nbits < 8 * 4 then (min a.nbits 32 + 7) / 8 else a.lb) 4 =
      (min a.nbits 32 + 7) / 8 := by
    rw [(ha.l hne).2]
    split_ifs <;> omega
  obtain ⟨w, s, hrun, hready, hview, hw⟩ := hshift x y a.nbits _ a.t hpos rfl ha.ready
  have hbits : vectorBits tms tdi (32 * ((bits - a.nbits) / 32) + min a.nbits 32) =
      vectorBits tms tdi (32 * ((bits - a.nbits) / 32)) ++ wordBits x y (min a.nbits 32) := by
    rw [hwords _ (by omega) (by omega), vectorBits_add]
  have hdone := ha.done
  rw [hm] at hdone
  have hstep := hdone.step (by omega) (by omega) hbits hview hw
  have hcount : 32 * ((bits - a.nbits) / 32) + min a.nbits 32 =
      bits - (a.nbits - min a.nbits 32) := by omega
  rw [hcount, ← hlb, ← ha.po hne] at hstep
  -- a round that is not the last one shifts a whole word
  have hmore : a.nbits - min a.nbits 32 ≠ 0 → ¬ a.nbits < 8 * 4 ∧ min a.nbits 32 = 32 ∧
      (bits - (a.nbits - min a.nbits 32)) / 32 = (bits - a.nbits) / 32 + 1 := by omega
  let lb := if a.nbits < 8 * 4 then (min a.nbits 32 + 7) / 8 else a.lb
  refine ⟨{ nbits := a.nbits - min a.nbits 32, l := min a.nbits 32, lb := lb, pi := a.pi + 8,
            po := a.po + lb, t := _ }, ?_, ⟨?_, ?_, ?_, ?_, ?_, hready, hstep⟩, ?_⟩
  · rw [shiftWord, ha.pi hne, htms]
    simp only [returned_bind, htdi, hl, hrun, pure_eq_returned, lb]
  · exact Nat.le_trans (Nat.sub_le _ _) hle
  · intro h
    have := (hmore h).2
    change (bits - (a.nbits - min a.nbits 32)) % 32 = 0
    omega
  · intro h
    refine ⟨(hmore h).2.1, ?_⟩
    rw [← (ha.l hne).2]
    exact if_neg (hmore h).1
  · intro h
    change a.pi + 8 = 4 + 8 * ((bits - (a.nbits - min a.nbits 32)) / 32)
    rw [(hmore h).2.2, ha.pi hne]
    omega
  · intro h
    change a.po + lb = 4 * ((bits - (a.nbits - min a.nbits 32)) / 32)
    have hfour : lb = 4 := by
      rw [← (ha.l hne).2]
      exact if_neg (hmore h).1
    rw [(hmore h).2.2, ha.po hne, hfour]
    omega
  · change a.nbits - min a.nbits 32 < a.nbits
    omega

variable (tms tdi t₀) in
theorem xfer_shiftMsg_ready {d : Drv} (hws : d.wordSize = 4) (h1 : 1 ≤ bits) (h20 : bits ≤ 2 ^ 20)
    (hshift : Shifts tgt view ready clean shift) {start : Transfer σ → Transfer σ}
    (hstart : ∀ t, (start t).hdbuf = t.hdbuf ∧ (start t).rxb = t.rxb) (code : ℕ → Header)
    {fuel : ℕ} (hfuel : bits < fuel)
    (hready : ∀ hdbuf, ready bits (start { t₀ with hdbuf := hdbuf }).dev)
    (hview : ∀ hdbuf, view (start { t₀ with hdbuf := hdbuf }).dev = v) :
    ∃ t, RegisterDriver.xfer start shift 4 code (d.shiftMsg bits tms tdi)
        (d.shiftMsg bits tms tdi).length 4 (bytesCeil bits) fuel t₀ =
          Run.returned (bytesCeil bits, t) ∧
      Executed tgt view clean tms tdi
        { t₀ with hdbuf := setHdr t₀.hdbuf 4 (mkShift (newXid d.xid) bits) } v bits t ∧
      ready 0 t.dev := by
  have hb : bits < 2 ^ 32 := by omega
  have hlen := shiftMsg_length_four d hws tms tdi hb
  let t₁ : Transfer σ := { t₀ with hdbuf := setHdr t₀.hdbuf 4 (mkShift (newXid d.xid) bits) }
  have hfirst : Going tgt view ready clean tms tdi bits t₁ v
      { nbits := bits, l := 8 * 4, lb := 4, pi := 4, po := 0, t := start t₁ } := by
    refine ⟨le_refl bits, ?_, ?_, ?_, ?_, hready _, ?_⟩
    · simp
    · simp
    · simp
    · simp
    · rw [Nat.sub_self]
      refine ⟨(hstart t₁).1, hview _, ?_, ?_, ?_⟩
      · intro i hi
        omega
      · intro _ i hle hlt
        unfold bytesCeil at hlt
        omega
      · intro j _
        rw [(hstart t₁).2]
  -- each round shifts at least one bit
  have hloop : ∃ b, loop (fun a => a.nbits > 0) (shiftWord shift (d.shiftMsg bits tms tdi)) fuel
      { nbits := bits, l := 8 * 4, lb := 4, pi := 4, po := 0, t := start t₁ } =
        Run.returned b ∧ Going tgt view ready clean tms tdi bits t₁ v b ∧
      decide (b.nbits > 0) = false :=
    loop_total _ Shifting.nbits
      (fun a ha hcond => ha.step hws hb hshift (of_decide_eq_true hcond)) hfirst hfuel
  obtain ⟨b, hloop, hgoing, hstop⟩ := hloop
  have hzero : b.nbits = 0 := by simpa using hstop
  have hdone := hgoing.done
  rw [hzero, Nat.sub_zero] at hdone
  have hready0 := hgoing.ready
  rw [hzero] at hready0
  refine ⟨b.t, ?_, hdone, hready0⟩
  -- the checks before the loop pass
  have hcmd : cmdS ≠ cmdQ := by decide
  have hsize : ¬ bytesCeil bits < (bits + 7) / 8 := by
    unfold bytesCeil
    omega
  have hinput : ¬ 4 + 8 * ((bits + 31) / 32) < ((bits + 7) / 8 + 4 - 1) / 4 * 2 * 4 := by omega
  rw [RegisterDriver.xfer, getw32_header d hws tms tdi hb]
  simp only [returned_bind, getVrs_mkShift _ h1 h20, getCmd_mkShift _ h1 h20,
    getLen_mkShift_server _ h1 h20, hcmd, RegisterDriver.lift, hlen, hinput, hsize,
    ne_eq, not_true_eq_false, if_false]
  rw [hloop]
  rfl

theorem xfer_shiftMsg {d : Drv} (hws : d.wordSize = 4) (h1 : 1 ≤ bits) (h20 : bits ≤ 2 ^ 20)
    (hshift : Shifts tgt view ready clean shift) {start : Transfer σ → Transfer σ}
    (hstart : ∀ t, (start t).hdbuf = t.hdbuf ∧ (start t).rxb = t.rxb) (code : ℕ → Header)
    {fuel : ℕ} (hfuel : bits < fuel)
    (hready : ∀ hdbuf, ready bits (start { t₀ with hdbuf := hdbuf }).dev)
    (hview : ∀ hdbuf, view (start { t₀ with hdbuf := hdbuf }).dev = v) :
    ∃ t, RegisterDriver.xfer start shift 4 code (d.shiftMsg bits tms tdi)
        (d.shiftMsg bits tms tdi).length 4 (bytesCeil bits) fuel t₀ =
          Run.returned (bytesCeil bits, t) ∧
      Executed tgt view clean tms tdi
        { t₀ with hdbuf := setHdr t₀.hdbuf 4 (mkShift (newXid d.xid) bits) } v bits t := by
  obtain ⟨t, hrun, hdone, -⟩ :=
    xfer_shiftMsg_ready tms tdi t₀ hws h1 h20 hshift hstart code hfuel hready hview
  exact ⟨t, hrun, hdone⟩

end

end XvcSupport
