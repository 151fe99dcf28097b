import Mathlib

namespace XvcSupport

variable {σ ε : Type*} (step : σ → ε → σ)

def runFrom (s : σ) (evs : List ε) : σ := evs.foldl step s

@[simp] theorem runFrom_nil (s : σ) : runFrom step s [] = s := rfl

@[simp] theorem runFrom_cons (s : σ) (ev : ε) (evs : List ε) :
    runFrom step s (ev :: evs) = runFrom step (step s ev) evs := rfl

theorem runFrom_append (s : σ) (evs evs' : List ε) :
    runFrom step s (evs ++ evs') = runFrom step (runFrom step s evs) evs' := by
  simp [runFrom]

/-- Every step of the run meets a condition on the state before it and its event. -/
def EveryStep (C : σ → ε → Prop) : σ → List ε → Prop
  | _, [] => True
  | s, ev :: evs => C s ev ∧ EveryStep C (step s ev) evs

instance decidableEveryStep {C : σ → ε → Prop} [∀ s ev, Decidable (C s ev)] :
    (s : σ) → (evs : List ε) → Decidable (EveryStep step C s evs)
  | _, [] => inferInstanceAs (Decidable True)
  | s, ev :: evs =>
    have : Decidable (EveryStep step C (step s ev) evs) := decidableEveryStep (step s ev) evs
    inferInstanceAs (Decidable (C s ev ∧ EveryStep step C (step s ev) evs))

variable {step}

theorem runFrom_invariant {C : σ → ε → Prop} {P : σ → Prop}
    (hstep : ∀ s ev, P s → C s ev → P (step s ev)) {s : σ} (hs : P s) {evs : List ε}
    (hC : EveryStep step C s evs) : P (runFrom step s evs) := by
  induction evs generalizing s with
  | nil => exact hs
  | cons ev evs ih => exact ih (hstep s ev hs hC.1) hC.2

theorem runFrom_induction {P : σ → Prop} (hstep : ∀ s ev, P s → P (step s ev)) {s : σ} (hs : P s)
    (evs : List ε) : P (runFrom step s evs) := by
  induction evs generalizing s with
  | nil => exact hs
  | cons ev evs ih => exact ih (hstep s ev hs)

/-- A rank that falls with every step as long as something does not hold: it does after enough
steps. -/
theorem runFrom_within {C : ε → Prop} {At : ℕ → σ → Prop} {Q : σ → Prop}
    (hstep : ∀ n s ev, At n s → ¬ Q s → C ev → ∃ n' < n, At n' (step s ev))
    (hzero : ∀ s, At 0 s → Q s) {n : ℕ} {s : σ} (h : At n s) {evs : List ε}
    (hC : ∀ ev ∈ evs, C ev) (hlen : n ≤ evs.length) :
    ∃ pre n', pre <+: evs ∧ At n' (runFrom step s pre) ∧ Q (runFrom step s pre) := by
  induction evs generalizing n s with
  | nil =>
    obtain rfl : n = 0 := Nat.le_zero.mp hlen
    exact ⟨[], 0, List.nil_prefix, h, hzero s h⟩
  | cons ev evs ih =>
    by_cases hq : Q s
    · exact ⟨[], n, List.nil_prefix, h, hq⟩
    · obtain ⟨n', hlt, h'⟩ := hstep n s ev h hq (hC ev (by simp))
      rw [List.length_cons] at hlen
      obtain ⟨pre, m, hpre, hat, hq'⟩ :=
        ih h' (fun ev' hev' => hC ev' (List.mem_cons_of_mem _ hev')) (by omega)
      exact ⟨ev :: pre, m, List.cons_prefix_cons.mpr ⟨rfl, hpre⟩, hat, hq'⟩

variable (step) in
/-- The state after the first `t` of endlessly many events. -/
def runAt (s : σ) (evs : ℕ → ε) (t : ℕ) : σ := runFrom step s ((List.range t).map evs)

variable {s : σ} {evs : ℕ → ε}

@[simp] theorem runAt_zero : runAt step s evs 0 = s := rfl

theorem runAt_succ (t : ℕ) :
    runAt step s evs (t + 1) = step (runAt step s evs t) (evs t) := by
  simp [runAt, List.range_succ, runFrom_append]

/-- What every step keeps under a condition holds as long as all steps before meet it. -/
theorem runAt_invariant {C : σ → ε → Prop} {P : σ → Prop}
    (hstep : ∀ s ev, P s → C s ev → P (step s ev)) (hs : P s) {t : ℕ}
    (hC : ∀ u < t, C (runAt step s evs u) (evs u)) : P (runAt step s evs t) := by
  induction t with
  | zero => exact hs
  | succ t ih =>
    rw [runAt_succ]
    exact hstep _ _ (ih fun u hu => hC u (by omega)) (hC t (by omega))

/-- What never shrinks in a step never shrinks in a run. -/
theorem runAt_mono {α : Type*} {f : σ → List α} (hstep : ∀ s ev, f s <+: f (step s ev))
    {t u : ℕ} (h : t ≤ u) : f (runAt step s evs t) <+: f (runAt step s evs u) := by
  induction u, h using Nat.le_induction with
  | base => exact List.prefix_rfl
  | succ u _ ih =>
    rw [runAt_succ]
    exact ih.trans (hstep _ _)

/-- A rank that never grows, and falls with certain steps, comes down to zero for good when such
steps keep coming. -/
theorem runAt_eventually {C Moves : σ → ε → Prop} {At : ℕ → σ → Prop}
    (hstep : ∀ n s ev, At n s → C s ev →
      ∃ n', At n' (step s ev) ∧ n' ≤ n ∧ (Moves s ev → 0 < n → n' < n))
    (hC : ∀ t, C (runAt step s evs t) (evs t))
    (hmoves : ∀ t, ∃ t' ≥ t, Moves (runAt step s evs t') (evs t')) {n : ℕ} (hs : At n s) :
    ∃ T, ∀ t ≥ T, At 0 (runAt step s evs t) := by
  have hlater : ∀ {n t u}, t ≤ u → At n (runAt step s evs t) →
      ∃ n' ≤ n, At n' (runAt step s evs u) := by
    intro n t u htu hat
    induction u, htu using Nat.le_induction with
    | base => exact ⟨n, le_rfl, hat⟩
    | succ u _ ih =>
      obtain ⟨n', hle, hat'⟩ := ih
      obtain ⟨n'', hat'', hle', -⟩ := hstep _ _ _ hat' (hC u)
      exact ⟨n'', hle'.trans hle, by rw [runAt_succ]; exact hat''⟩
  have hzero : ∀ n t, At n (runAt step s evs t) → ∃ T, At 0 (runAt step s evs T) := by
    intro n
    induction n using Nat.strong_induction_on with
    | _ n ih =>
      intro t hat
      obtain ⟨t', ht', hmove⟩ := hmoves t
      obtain ⟨n', hle, hat'⟩ := hlater ht' hat
      rcases Nat.eq_zero_or_pos n' with rfl | hpos
      · exact ⟨t', hat'⟩
      · obtain ⟨n'', hat'', -, hlt⟩ := hstep _ _ _ hat' (hC t')
        exact ih n'' ((hlt hmove hpos).trans_le hle) (t' + 1) (by rw [runAt_succ]; exact hat'')
  obtain ⟨T, hT⟩ := hzero n 0 hs
  refine ⟨T, fun t ht => ?_⟩
  obtain ⟨n', hle, hat⟩ := hlater ht hT
  rwa [Nat.le_zero.mp hle] at hat

/-- What holds until something happens, and what is bound to happen. -/
theorem runAt_reaches {P : σ → Prop} {Q : σ → ε → Prop} {E : ε → Prop}
    (hstep : ∀ s ev, P s → ¬ Q s ev → P (step s ev)) (hforce : ∀ s ev, P s → E ev → Q s ev)
    (hevs : ∀ t, ∃ t' ≥ t, E (evs t')) {t : ℕ} (h : P (runAt step s evs t)) :
    ∃ t' ≥ t, P (runAt step s evs t') ∧ Q (runAt step s evs t') (evs t') := by
  obtain ⟨t', ht', hE⟩ := hevs t
  obtain ⟨d, rfl⟩ := Nat.exists_eq_add_of_le ht'
  -- the number of steps until it must happen
  induction d generalizing t with
  | zero => exact ⟨t, le_rfl, h, hforce _ _ h hE⟩
  | succ d ih =>
    by_cases hQ : Q (runAt step s evs t) (evs t)
    · exact ⟨t, le_rfl, h, hQ⟩
    · have hnext : P (runAt step s evs (t + 1)) := by
        rw [runAt_succ]
        exact hstep _ _ h hQ
      have heq : t + 1 + d = t + (d + 1) := by omega
      obtain ⟨u, hu, hP⟩ := ih hnext (by omega) (by rw [heq]; exact hE)
      exact ⟨u, by omega, hP⟩

end XvcSupport
