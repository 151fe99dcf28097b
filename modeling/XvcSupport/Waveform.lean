import XvcSupport.SerDes
import XvcSupport.Runs

namespace XvcSupport

/-- `f` has had its value at `t` for `n` steps. -/
def Held {α : Type*} (f : ℕ → α) (t n : ℕ) : Prop := n ≤ t ∧ ∀ k ≤ n, f (t - k) = f t

namespace Held

variable {α : Type*} {f : ℕ → α} {t n : ℕ}

theorem zero (f : ℕ → α) (t : ℕ) : Held f t 0 := by
  refine ⟨Nat.zero_le t, fun k hk => ?_⟩
  rw [Nat.le_zero.mp hk, Nat.sub_zero]

theorem succ (h : Held f t n) (heq : f (t + 1) = f t) : Held f (t + 1) (n + 1) := by
  refine ⟨Nat.succ_le_succ h.1, fun k hk => ?_⟩
  cases k with
  | zero => rfl
  | succ k => rw [Nat.add_sub_add_right, heq, h.2 k (Nat.le_of_succ_le_succ hk)]

theorem mono (h : Held f t n) {m : ℕ} (hm : m ≤ n) : Held f t m :=
  ⟨hm.trans h.1, fun k hk => h.2 k (hk.trans hm)⟩

end Held

namespace JtagSerDesCore

variable {W : ℕ}

/-- `v.tck_pos`, which `P_COMB` sets where it raises TCK. -/
def Reg.tckPos (r : Reg W) (i : In W) : Bool :=
  match r.state with
  | .idle => false
  | .shift => decide (r.div = 0) && !r.tck &&
      (!r.lastBit || (decide (0 ≤ r.cnt) && i.dataOutReady))
  | .wai => i.dataOutReady && decide (0 ≤ r.cnt)

/-- `v.tck_neg`, which `P_COMB` sets where it lowers TCK. -/
def Reg.tckNeg (r : Reg W) : Bool := decide (r.state = .shift ∧ r.div = 0) && r.tck

/-- All registers. -/
structure Strobed (W : ℕ) extends Reg W where
  tck_pos : Bool
  tck_neg : Bool

def Strobed.init (W : ℕ) : Strobed W := { Reg.init W with tck_pos := false, tck_neg := false }

/-- `P_SEQ`; the event is `rst` with the inputs. -/
def Strobed.clock (clkDiv2 : ℕ) (s : Strobed W) (ev : Bool × In W) : Strobed W :=
  if ev.1 then .init W
  else
    { s.toReg.next clkDiv2 ev.2 with
      tck_pos := s.toReg.tckPos ev.2
      tck_neg := s.toReg.tckNeg }

/-- What the target sees. -/
def Reg.levels (r : Reg W) : Bool × Bool × Bool := (r.tck, r.pins)

/-- What holds of all registers that are reached. -/
structure Paced (clkDiv2 : ℕ) (r : Reg W) : Prop where
  div_lt : r.div < clkDiv2
  tck_low : r.state ≠ .shift → r.tck = false

variable {clkDiv2 : ℕ} {r : Reg W} {i : In W}

theorem Paced.init (hD : 0 < clkDiv2) : Paced clkDiv2 (Reg.init W) := ⟨hD, fun _ => rfl⟩

/-- The time for the next edge of TCK has come. -/
def Reg.Due (r : Reg W) : Prop := r.state = .wai ∨ r.state = .shift ∧ r.div = 0

/-- What a step does to the pins. -/
inductive Move (clkDiv2 : ℕ) (r r' : Reg W) : Prop
  | rest (hidle : r.state = .idle) (hidle' : r'.state = .idle) (hlev : r'.levels = r.levels)
      (hdiv : r'.div = r.div)
  | load (hidle : r.state = .idle) (hstate : r'.state = .shift) (htck : r'.tck = false)
      (hdiv : r'.div = clkDiv2 - 1)
  | count (hstate : r.state = .shift) (hpos : r.div ≠ 0) (hstate' : r'.state = .shift)
      (hlev : r'.levels = r.levels) (hdiv : r'.div = r.div - 1)
  | rise (hdue : r.Due) (hlow : r.tck = false) (hstate : r'.state = .shift) (htck : r'.tck = true)
      (hpins : r'.pins = r.pins) (hdiv : r'.div = clkDiv2 - 1)
  | hold (hdue : r.Due) (hlow : r.tck = false) (hstate : r'.state ≠ .shift)
      (hlev : r'.levels = r.levels) (hdiv : r'.div = r.div)
  | fall (hdue : r.Due) (hhigh : r.tck = true) (hstate : r'.state = .shift) (htck : r'.tck = false)
      (hdiv : r'.div = clkDiv2 - 1)

theorem Reg.raise_move (h : r.state = .shift) (hdiv : r.div = 0) (hlow : r.tck = false) (i : In W) :
    Move clkDiv2 r (r.raise clkDiv2 i) := by
  have hdue : r.Due := Or.inr ⟨h, hdiv⟩
  unfold Reg.raise
  split_ifs
  · exact .rise hdue hlow h rfl rfl rfl
  · exact .hold hdue hlow (by simp) rfl rfl
  · exact .hold hdue hlow (by simp) rfl rfl
  · exact .hold hdue hlow (by simp) rfl rfl
  · exact .rise hdue hlow h rfl rfl rfl

theorem Reg.lower_move (h : r.state = .shift) (hdiv : r.div = 0) (hhigh : r.tck = true) (i : In W) :
    Move clkDiv2 r (r.lower clkDiv2 i) := by
  have hdue : r.Due := Or.inr ⟨h, hdiv⟩
  unfold Reg.lower
  split_ifs
  all_goals exact .fall hdue hhigh h rfl rfl

theorem Paced.move (h : Paced clkDiv2 r) (i : In W) : Move clkDiv2 r (r.next clkDiv2 i) := by
  cases hs : r.state with
  | idle =>
    have hlow := h.tck_low (by rw [hs]; simp)
    simp only [Reg.next, hs]
    split_ifs
    · exact .load hs rfl hlow rfl
    · exact .rest hs rfl rfl rfl
  | shift =>
    simp only [Reg.next, hs]
    split_ifs with hdiv htck
    · exact Reg.lower_move hs hdiv htck i
    · exact Reg.raise_move hs hdiv (by simpa using htck) i
    · exact .count hs hdiv rfl rfl rfl
  | wai =>
    have hlow := h.tck_low (by rw [hs]; simp)
    simp only [Reg.next, hs]
    split_ifs
    · exact .rise (Or.inl hs) hlow rfl rfl rfl rfl
    · exact .hold (Or.inl hs) hlow (by simp) rfl rfl
    · exact .hold (Or.inl hs) hlow (by simp [hs]) rfl rfl

/-- Only at the end of a low phase TDO is sampled. -/
theorem Reg.due_of_tdo (h : (r.next clkDiv2 i).tdo ≠ r.tdo) : r.Due ∧ r.tck = false := by
  cases hs : r.state with
  | idle =>
    refine absurd ?_ h
    simp only [Reg.next, hs]
    split_ifs
    all_goals rfl
  | shift =>
    simp only [Reg.next, hs] at h
    split_ifs at h with hdiv htck
    · refine absurd ?_ h
      unfold Reg.lower
      split_ifs
      all_goals rfl
    · exact ⟨Or.inr ⟨hs, hdiv⟩, by simpa using htck⟩
    · exact absurd rfl h
  | wai =>
    refine absurd ?_ h
    simp only [Reg.next, hs]
    split_ifs
    all_goals rfl

/-- TDO matters only there. -/
theorem Reg.next_tdo (h : ¬ (r.state = .shift ∧ r.div = 0 ∧ r.tck = false)) (i : In W)
    (tdo : Bool) :
    r.next clkDiv2 { i with tdo := tdo } = r.next clkDiv2 i := by
  cases hs : r.state with
  | idle => simp only [Reg.next, hs]
  | wai => simp only [Reg.next, hs]
  | shift =>
    simp only [Reg.next, hs]
    split_ifs with hdiv htck
    · rfl
    · exact absurd ⟨hs, hdiv, by simpa using htck⟩ h
    · rfl

theorem levels_tck {r r' : Reg W} (h : r'.levels = r.levels) : r'.tck = r.tck :=
  congrArg Prod.fst h

theorem levels_pins {r r' : Reg W} (h : r'.levels = r.levels) : r'.pins = r.pins :=
  congrArg Prod.snd h

theorem Move.paced (h : Paced clkDiv2 r) {r' : Reg W} (hm : Move clkDiv2 r r') :
    Paced clkDiv2 r' := by
  have hlt := h.div_lt
  cases hm with
  | rest hidle _ hlev hdiv =>
    refine ⟨hdiv ▸ hlt, fun _ => ?_⟩
    rw [levels_tck hlev, h.tck_low (by rw [hidle]; simp)]
  | load _ hstate _ hdiv => exact ⟨by omega, fun hne => absurd hstate hne⟩
  | count _ _ hstate' _ hdiv => exact ⟨by omega, fun hne => absurd hstate' hne⟩
  | rise _ _ hstate _ _ hdiv => exact ⟨by omega, fun hne => absurd hstate hne⟩
  | hold _ hlow _ hlev hdiv => exact ⟨hdiv ▸ hlt, fun _ => (levels_tck hlev).trans hlow⟩
  | fall _ _ hstate _ hdiv => exact ⟨by omega, fun hne => absurd hstate hne⟩

theorem Paced.tckPos_iff (h : Paced clkDiv2 r) (i : In W) :
    r.tckPos i = true ↔ r.tck = false ∧ (r.next clkDiv2 i).tck = true := by
  cases hs : r.state with
  | idle =>
    have hlow := h.tck_low (by rw [hs]; simp)
    simp only [Reg.tckPos, Reg.next, hs]
    split_ifs
    all_goals simp [hlow]
  | shift =>
    simp only [Reg.tckPos, Reg.next, hs]
    split_ifs with hdiv htck
    · simp [htck]
    · unfold Reg.raise
      split_ifs
      all_goals simp_all
    · simp [hdiv]
  | wai =>
    have hlow := h.tck_low (by rw [hs]; simp)
    simp only [Reg.tckPos, Reg.next, hs]
    split_ifs with hready hcnt
    all_goals simp_all

theorem Paced.tckNeg_iff (h : Paced clkDiv2 r) (i : In W) :
    r.tckNeg = true ↔ r.tck = true ∧ (r.next clkDiv2 i).tck = false := by
  have hmove := h.move i
  cases htck : r.tck with
  | false => simp [Reg.tckNeg, htck]
  | true =>
    cases hmove with
    | rest hidle _ _ _ => exact absurd (h.tck_low (by rw [hidle]; simp)) (by rw [htck]; simp)
    | load hidle _ _ _ => exact absurd (h.tck_low (by rw [hidle]; simp)) (by rw [htck]; simp)
    | count hstate hpos _ hlev _ => simp [Reg.tckNeg, hpos, levels_tck hlev, htck]
    | rise _ hlow _ _ _ _ => exact absurd hlow (by rw [htck]; simp)
    | hold _ hlow _ _ _ => exact absurd hlow (by rw [htck]; simp)
    | fall hdue _ _ hfall _ =>
      obtain hwai | ⟨hstate, hdiv⟩ := hdue
      · exact absurd (h.tck_low (by rw [hwai]; simp)) (by rw [htck]; simp)
      · simp [Reg.tckNeg, hstate, hdiv, htck, hfall]

section Run

variable (clkDiv2) (evs : ℕ → Bool × In W)

/-- The serializer after `t` cycles from reset. -/
def Strobed.run : ℕ → Strobed W := runAt (Strobed.clock clkDiv2) (.init W) evs

variable {clkDiv2 evs} {t : ℕ}

theorem Strobed.run_succ : Strobed.run clkDiv2 evs (t + 1) =
    (Strobed.run clkDiv2 evs t).clock clkDiv2 (evs t) := runAt_succ t

theorem Strobed.run_reset (h : (evs t).1 = true) :
    Strobed.run clkDiv2 evs (t + 1) = .init W := by
  rw [run_succ, Strobed.clock, if_pos h]

theorem Strobed.run_next (h : (evs t).1 = false) :
    (Strobed.run clkDiv2 evs (t + 1)).toReg =
      (Strobed.run clkDiv2 evs t).toReg.next clkDiv2 (evs t).2 := by
  rw [run_succ, Strobed.clock, if_neg (by rw [h]; simp)]

variable (evs) in
theorem Strobed.paced (hD : 0 < clkDiv2) (t : ℕ) :
    Paced clkDiv2 (Strobed.run clkDiv2 evs t).toReg := by
  induction t with
  | zero => exact .init hD
  | succ t ih =>
    cases hrst : (evs t).1 with
    | true =>
      rw [run_reset hrst]
      exact .init hD
    | false =>
      rw [run_next hrst]
      exact (ih.move _).paced ih

theorem Strobed.move (hD : 0 < clkDiv2) (h : (evs t).1 = false) :
    Move clkDiv2 (Strobed.run clkDiv2 evs t).toReg (Strobed.run clkDiv2 evs (t + 1)).toReg := by
  rw [run_next h]
  exact (paced evs hD t).move _

/-- How long the pins have had their levels at least: as long as the divider has counted. -/
def Reg.age (clkDiv2 : ℕ) (r : Reg W) : ℕ :=
  match r.state with
  | .idle => 0
  | .shift => clkDiv2 - 1 - r.div
  | .wai => clkDiv2 - 1

theorem Reg.age_due (h : r.Due) : r.age clkDiv2 = clkDiv2 - 1 := by
  obtain h | ⟨h, hdiv⟩ := h
  · simp only [Reg.age, h]
  · simp only [Reg.age, h, hdiv, Nat.sub_zero]

theorem Strobed.held (hD : 0 < clkDiv2) (t : ℕ) :
    Held (fun u => (Strobed.run clkDiv2 evs u).toReg.levels) t
      ((Strobed.run clkDiv2 evs t).toReg.age clkDiv2) := by
  induction t with
  | zero => exact .zero _ 0
  | succ t ih =>
    have hnew {r' : Reg W} (hr : (Strobed.run clkDiv2 evs (t + 1)).toReg = r')
        (hage : r'.age clkDiv2 = 0) : Held (fun u => (Strobed.run clkDiv2 evs u).toReg.levels)
          (t + 1) ((Strobed.run clkDiv2 evs (t + 1)).toReg.age clkDiv2) := by
      rw [hr, hage]
      exact .zero _ _
    have hfull {r' : Reg W} (hstate : r'.state = .shift) (hdiv : r'.div = clkDiv2 - 1) :
        r'.age clkDiv2 = 0 := by simp only [Reg.age, hstate, hdiv, Nat.sub_self]
    cases hrst : (evs t).1 with
    | true => exact hnew (congrArg Strobed.toReg (run_reset hrst)) rfl
    | false =>
      cases Strobed.move hD hrst with
      | rest _ hidle' _ _ => exact hnew rfl (by simp only [Reg.age, hidle'])
      | load _ hstate _ hdiv => exact hnew rfl (hfull hstate hdiv)
      | rise _ _ hstate _ _ hdiv => exact hnew rfl (hfull hstate hdiv)
      | fall _ _ hstate _ hdiv => exact hnew rfl (hfull hstate hdiv)
      | count hstate _ hstate' hlev hdiv =>
        refine (ih.succ hlev).mono ?_
        simp only [Reg.age, hstate, hstate', hdiv]
        omega
      | hold hdue _ _ hlev _ =>
        refine (ih.succ hlev).mono ?_
        rw [Reg.age_due hdue]
        unfold Reg.age
        split
        all_goals omega

/-- TCK stays high for as long as the divider counts. -/
theorem Strobed.high (hD : 0 < clkDiv2) {k : ℕ} (hk : k < clkDiv2)
    (hrise : (Strobed.run clkDiv2 evs t).tck = false ∧ (Strobed.run clkDiv2 evs (t + 1)).tck = true)
    (hrst : ∀ j < k, (evs (t + 1 + j)).1 = false) :
    (Strobed.run clkDiv2 evs (t + 1 + k)).toReg.levels =
        (Strobed.run clkDiv2 evs (t + 1)).toReg.levels ∧
      (Strobed.run clkDiv2 evs (t + 1 + k)).state = .shift ∧
      (Strobed.run clkDiv2 evs (t + 1 + k)).div = clkDiv2 - 1 - k := by
  induction k with
  | zero =>
    refine ⟨rfl, ?_⟩
    obtain ⟨hlow, hhigh⟩ := hrise
    cases hreset : (evs t).1 with
    | true =>
      rw [run_reset hreset] at hhigh
      exact absurd hhigh (by simp [Strobed.init, Reg.init])
    | false =>
      have hstays {r : Reg W} (h : (run clkDiv2 evs (t + 1)).toReg.levels = r.levels)
          (hr : r.tck = false) : False := by
        rw [levels_tck h, hr] at hhigh
        cases hhigh
      cases Strobed.move hD hreset with
      | rest _ _ hlev _ => exact (hstays hlev hlow).elim
      | load _ _ htck _ => exact absurd hhigh (by rw [htck]; simp)
      | count _ _ _ hlev _ => exact (hstays hlev hlow).elim
      | rise _ _ hstate _ _ hdiv => exact ⟨hstate, hdiv⟩
      | hold _ _ _ hlev _ => exact (hstays hlev hlow).elim
      | fall _ _ _ htck _ => exact absurd hhigh (by rw [htck]; simp)
  | succ k ih =>
    obtain ⟨hlev, hstate, hdiv⟩ := ih (Nat.lt_of_succ_lt hk) fun j hj => hrst j (by omega)
    have hhigh : (Strobed.run clkDiv2 evs (t + 1 + k)).tck = true :=
      (levels_tck hlev).trans hrise.2
    cases Strobed.move hD (hrst k (Nat.lt_succ_self k)) with
    | rest hidle _ _ _ => exact absurd hstate (by rw [hidle]; simp)
    | load hidle _ _ _ => exact absurd hstate (by rw [hidle]; simp)
    | count _ _ hstate' hlev' hdiv' =>
      refine ⟨hlev'.trans hlev, hstate', ?_⟩
      change (Strobed.run clkDiv2 evs (t + 1 + k + 1)).div = _
      rw [hdiv', hdiv]
      omega
    | rise _ hlow _ _ _ _ => exact absurd hlow (by rw [hhigh]; simp)
    | hold _ hlow _ _ _ => exact absurd hlow (by rw [hhigh]; simp)
    | fall hdue _ _ _ _ =>
      obtain hwai | ⟨-, hzero⟩ := hdue
      · exact absurd hstate (by rw [hwai]; simp)
      · omega

theorem Strobed.held_due (hD : 0 < clkDiv2) (h : (Strobed.run clkDiv2 evs t).toReg.Due) :
    Held (fun u => (Strobed.run clkDiv2 evs u).toReg.levels) t (clkDiv2 - 1) := by
  rw [← Reg.age_due h]
  exact held hD t

end Run

/-- The waveform in every run, with resets at any time.  Without a reset TCK has an edge only when
TCK, TMS and TDI have kept their levels for `CLK_DIV2_G` cycles; TMS and TDI change only with TCK
low; a high phase that no reset cuts short has exactly `CLK_DIV2_G` cycles; `tck_posedge` is high
in the first cycle of every high phase and at no other time, `tck_negedge` in the first cycle
after each fall that is not a reset; TDO is sampled with TCK low, when the levels have been kept
for `CLK_DIV2_G` cycles. -/
theorem tck_waveform {clkDiv2 : ℕ} (hD : 0 < clkDiv2) (evs : ℕ → Bool × In W) (t : ℕ) :
    let s := Strobed.run clkDiv2 evs
    let settled := Held (fun u => (s u).toReg.levels) t (clkDiv2 - 1)
    ((s (t + 1)).tck ≠ (s t).tck → (evs t).1 = false → settled) ∧
    ((s (t + 1)).toReg.pins ≠ (s t).toReg.pins → (s (t + 1)).tck = false) ∧
    ((s t).tck = false ∧ (s (t + 1)).tck = true →
      (∀ j < clkDiv2 - 1, (evs (t + 1 + j)).1 = false) →
        (∀ k < clkDiv2, (s (t + 1 + k)).toReg.levels = (s (t + 1)).toReg.levels) ∧
          (s (t + 1 + clkDiv2)).tck = false) ∧
    ((s (t + 1)).tck_pos = true ↔ (s t).tck = false ∧ (s (t + 1)).tck = true) ∧
    ((s (t + 1)).tck_neg = true ↔
      (evs t).1 = false ∧ (s t).tck = true ∧ (s (t + 1)).tck = false) ∧
    ((s (t + 1)).tdo ≠ (s t).tdo → (evs t).1 = false → (s t).tck = false ∧ settled) := by
  intro s settled
  refine ⟨?_, ?_, ?_, ?_, ?_, ?_⟩
  · intro hedge hrst
    cases Strobed.move hD hrst with
    | rest _ _ hlev _ => exact absurd (levels_tck hlev) hedge
    | load hidle _ htck _ =>
      have hlow := (Strobed.paced evs hD t).tck_low (by rw [hidle]; simp)
      exact absurd (htck.trans hlow.symm) hedge
    | count _ _ _ hlev _ => exact absurd (levels_tck hlev) hedge
    | rise hdue _ _ _ _ _ => exact Strobed.held_due hD hdue
    | hold _ _ _ hlev _ => exact absurd (levels_tck hlev) hedge
    | fall hdue _ _ _ _ => exact Strobed.held_due hD hdue
  · intro hpins
    cases hrst : (evs t).1 with
    | true =>
      change (Strobed.run clkDiv2 evs (t + 1)).tck = false
      rw [Strobed.run_reset hrst]
      rfl
    | false =>
      cases Strobed.move hD hrst with
      | rest _ _ hlev _ => exact absurd (levels_pins hlev) hpins
      | load _ _ htck _ => exact htck
      | count _ _ _ hlev _ => exact absurd (levels_pins hlev) hpins
      | rise _ _ _ _ hsame _ => exact absurd hsame hpins
      | hold _ _ _ hlev _ => exact absurd (levels_pins hlev) hpins
      | fall _ _ _ htck _ => exact htck
  · intro hrise hrst
    refine ⟨fun k hk => (Strobed.high hD hk hrise fun j hj => hrst j (by omega)).1, ?_⟩
    obtain ⟨hlev, hstate, hdiv⟩ := Strobed.high hD (Nat.sub_lt hD one_pos) hrise hrst
    have hhigh : (Strobed.run clkDiv2 evs (t + 1 + (clkDiv2 - 1))).tck = true :=
      (levels_tck hlev).trans hrise.2
    have hlast : t + 1 + clkDiv2 = t + 1 + (clkDiv2 - 1) + 1 := by omega
    change (Strobed.run clkDiv2 evs (t + 1 + clkDiv2)).tck = false
    rw [hlast]
    cases hreset : (evs (t + 1 + (clkDiv2 - 1))).1 with
    | true =>
      rw [Strobed.run_reset hreset]
      rfl
    | false =>
      cases Strobed.move hD hreset with
      | rest hidle _ _ _ => exact absurd hstate (by rw [hidle]; simp)
      | load hidle _ _ _ => exact absurd hstate (by rw [hidle]; simp)
      | count _ hpos _ _ _ => omega
      | rise _ hlow _ _ _ _ => exact absurd hlow (by rw [hhigh]; simp)
      | hold _ hlow _ _ _ => exact absurd hlow (by rw [hhigh]; simp)
      | fall _ _ _ htck _ => exact htck
  · change (Strobed.run clkDiv2 evs (t + 1)).tck_pos = true ↔
      _ ∧ (Strobed.run clkDiv2 evs (t + 1)).tck = true
    cases hrst : (evs t).1 with
    | true =>
      rw [Strobed.run_reset hrst]
      simp [Strobed.init, Reg.init]
    | false =>
      have hstep := (Strobed.paced evs hD t).tckPos_iff (evs t).2
      rw [Strobed.run_succ, Strobed.clock, if_neg (by rw [hrst]; simp)]
      exact hstep
  · change (Strobed.run clkDiv2 evs (t + 1)).tck_neg = true ↔
      _ ∧ _ ∧ (Strobed.run clkDiv2 evs (t + 1)).tck = false
    cases hrst : (evs t).1 with
    | true =>
      rw [Strobed.run_reset hrst]
      simp [Strobed.init]
    | false =>
      have hstep := (Strobed.paced evs hD t).tckNeg_iff (evs t).2
      rw [Strobed.run_succ, Strobed.clock, if_neg (by rw [hrst]; simp)]
      simpa using hstep
  · intro htdo hrst
    have hnext : (s (t + 1)).tdo = ((s t).toReg.next clkDiv2 (evs t).2).tdo :=
      congrArg Reg.tdo (Strobed.run_next hrst)
    rw [hnext] at htdo
    obtain ⟨hdue, hlow⟩ := Reg.due_of_tdo htdo
    exact ⟨hlow, Strobed.held_due hD hdue⟩

/-- A fall of TCK with the divider at 3: the levels have been kept for three cycles. -/
theorem tck_waveform_three :
    Held (fun u => (Strobed.run 3 (fun _ => (false, ⟨0, (1 : BitVec 4), 1, true, true, false⟩))
      u).toReg.levels) 6 2 :=
  (tck_waveform (by decide) (fun _ => (false, ⟨0, (1 : BitVec 4), 1, true, true, false⟩)) 6).1
    (by decide) rfl

end JtagSerDesCore

end XvcSupport
