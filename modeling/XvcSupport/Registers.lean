import XvcSupport.Words

namespace XvcSupport

/-- A device whose registers are 32 bits wide; reads may have effects, too. -/
structure Registers (σ : Type) where
  rd : ℕ → σ → BitVec 32 × σ
  wr : ℕ → BitVec 32 → σ → σ

/-- A run of a program: it is still running, has thrown or has returned. -/
abbrev Run (ε : Type) : Type → Type := ExceptT ε Option

def Run.returned {ε α : Type} (a : α) : Run ε α := some (.ok a)

def Run.threw {ε α : Type} (e : ε) : Run ε α := some (.error e)

def Run.running {ε α : Type} : Run ε α := none

section

variable {ε α β : Type}

@[simp] theorem returned_bind (a : α) (f : α → Run ε β) :
    (Run.returned a : Run ε α) >>= f = f a := rfl

@[simp] theorem threw_bind (e : ε) (f : α → Run ε β) :
    (Run.threw e : Run ε α) >>= f = Run.threw e := rfl

@[simp] theorem running_bind (f : α → Run ε β) :
    (Run.running : Run ε α) >>= f = Run.running := rfl

@[simp] theorem pure_eq_returned (a : α) : (pure a : Run ε α) = Run.returned a := rfl

theorem returned_inj {a b : α} (h : (Run.returned a : Run ε α) = Run.returned b) : a = b := by
  exact Except.ok.inj (Option.some.inj h)

/-- `while (cond) body`, for fewer than `fuel` rounds. -/
def loop (cond : α → Bool) (body : α → Run ε α) : ℕ → α → Run ε α
  | 0, _ => Run.running
  | fuel + 1, a => if cond a then body a >>= loop cond body fuel else Run.returned a

variable {cond : α → Bool} {body : α → Run ε α}

theorem loop_stops (f : ℕ → α) {n : ℕ} {a b : α} (hstart : f 0 = a) (hend : f n = b)
    (hstep : ∀ k < n, cond (f k) = true ∧ body (f k) = Run.returned (f (k + 1)))
    (hstop : cond b = false) {fuel : ℕ} (hfuel : n < fuel) :
    loop cond body fuel a = Run.returned b := by
  induction n generalizing f a fuel with
  | zero =>
    obtain ⟨fuel, rfl⟩ := Nat.exists_eq_add_of_lt hfuel
    rw [← hstart, hend, loop, if_neg (by simp [hstop])]
  | succ n ih =>
    obtain ⟨fuel, rfl⟩ := Nat.exists_eq_add_of_lt hfuel
    have hfirst := hstep 0 (Nat.succ_pos n)
    rw [← hstart, loop, if_pos hfirst.1, hfirst.2, returned_bind]
    exact ih (fun k => f (k + 1)) rfl hend (fun k hk => hstep (k + 1) (by omega)) (by omega)

theorem loop_total (P : α → Prop) (measure : α → ℕ)
    (hstep : ∀ a, P a → cond a = true →
      ∃ a', body a = Run.returned a' ∧ P a' ∧ measure a' < measure a) {a : α} (ha : P a)
    {fuel : ℕ} (hfuel : measure a < fuel) :
    ∃ b, loop cond body fuel a = Run.returned b ∧ P b ∧ cond b = false := by
  induction fuel generalizing a with
  | zero => omega
  | succ fuel ih =>
    by_cases hcond : cond a = true
    · obtain ⟨a', hbody, ha', hlt⟩ := hstep a ha hcond
      rw [loop, if_pos hcond, hbody, returned_bind]
      exact ih ha' (by omega)
    · exact ⟨a, by rw [loop, if_neg hcond], ha, by simpa using hcond⟩

theorem loop_keeps (P : α → Prop) (hbody : ∀ a a', P a → body a = Run.returned a' → P a')
    {fuel : ℕ} {a b : α} (ha : P a) (h : loop cond body fuel a = Run.returned b) : P b := by
  induction fuel generalizing a with
  | zero => cases h
  | succ fuel ih =>
    rw [loop] at h
    split_ifs at h
    · rcases hround : body a with _ | _ | a'
      · rw [hround] at h
        cases h
      · rw [hround] at h
        cases h
      · rw [hround] at h
        exact ih (hbody a a' ha hround) h
    · exact returned_inj h ▸ ha

theorem loop_runs (f : ℕ → α) {a : α} (hstart : f 0 = a)
    (hstep : ∀ k, cond (f k) = true ∧ body (f k) = Run.returned (f (k + 1))) (fuel : ℕ) :
    loop cond body fuel a = Run.running := by
  induction fuel generalizing f a with
  | zero => rfl
  | succ fuel ih =>
    rw [← hstart, loop, if_pos (hstep 0).1, (hstep 0).2, returned_bind]
    exact ih (fun k => f (k + 1)) rfl fun k => hstep (k + 1)

end

/-- What a transfer changes: the buffers of its caller, the counter of drops and the device. -/
structure Transfer (σ : Type) where
  hdbuf : Mem
  rxb : Mem
  drop : BitVec 32
  dev : σ

namespace RegisterDriver

variable {σ ε : Type} (regs : Registers σ)

def i32 (idx : ℕ) (t : Transfer σ) : BitVec 32 × Transfer σ :=
  ((regs.rd idx t.dev).1, { t with dev := (regs.rd idx t.dev).2 })

def o32 (idx : ℕ) (w : BitVec 32) (t : Transfer σ) : Transfer σ :=
  { t with dev := regs.wr idx w t.dev }

/-- Polls until `ready` accepts what is read; `wait` does not touch the registers. -/
def poll (idx : ℕ) (ready : BitVec 32 → Bool) (fuel : ℕ) (t : Transfer σ) :
    Run ε (BitVec 32 × Transfer σ) :=
  loop (fun (w, _) => !ready w) (fun (_, t) => Run.returned (i32 regs idx t)) fuel (i32 regs idx t)

/-- Only the device has changed. -/
def SameBuffers (t t' : Transfer σ) : Prop := t' = { t with dev := t'.dev }

theorem SameBuffers.trans {t t' t'' : Transfer σ} (h : SameBuffers t t') (h' : SameBuffers t' t'') :
    SameBuffers t t'' := by
  rw [SameBuffers, h', h]

variable {regs} {idx : ℕ} {ready : BitVec 32 → Bool}

theorem sameBuffers_poll {fuel : ℕ} {t t' : Transfer σ} {w : BitVec 32}
    (h : (poll regs idx ready fuel t : Run ε (BitVec 32 × Transfer σ)) = Run.returned (w, t')) :
    SameBuffers t t' := by
  have hstart : SameBuffers t (i32 regs idx t).2 := rfl
  refine loop_keeps (fun a : BitVec 32 × Transfer σ => SameBuffers t a.2) ?_ hstart h
  rintro ⟨w, u⟩ a' hu hround
  obtain rfl := returned_inj hround
  exact hu.trans (rfl : SameBuffers u (i32 regs idx u).2)

theorem poll_within (P : ℕ → σ → Prop) (Q : σ → Prop)
    (hstep : ∀ n s, P n s → ready (regs.rd idx s).1 = true ∧ Q (regs.rd idx s).2 ∨
      ready (regs.rd idx s).1 = false ∧ ∃ k < n, P k (regs.rd idx s).2)
    {n fuel : ℕ} {t : Transfer σ} (h : P n t.dev) (hfuel : n < fuel) :
    ∃ w dev, (poll regs idx ready fuel t : Run ε (BitVec 32 × Transfer σ)) =
      Run.returned (w, { t with dev := dev }) ∧ Q dev := by
  induction fuel generalizing n t with
  | zero => omega
  | succ fuel ih =>
    rcases hstep n t.dev h with ⟨hready, hQ⟩ | ⟨hready, k, hk, hP⟩
    · refine ⟨(regs.rd idx t.dev).1, (regs.rd idx t.dev).2, ?_, hQ⟩
      rw [poll, loop, if_neg (by simp [i32, hready])]
      rfl
    · obtain ⟨w, dev, hpoll, hQ⟩ := ih (t := (i32 regs idx t).2) hP (by omega)
      refine ⟨w, dev, ?_, hQ⟩
      rw [poll, loop, if_pos (by simp [i32, hready]), returned_bind]
      exact hpoll

variable (count : σ → ℕ) (settle : σ → σ)

theorem poll_settles
    (hbusy : ∀ s, count s ≠ 0 → ready (regs.rd idx s).1 = false ∧
      count (regs.rd idx s).2 < count s ∧ settle (regs.rd idx s).2 = settle s)
    (hidle : ∀ s, count s = 0 → ready (regs.rd idx s).1 = true ∧ (regs.rd idx s).2 = settle s)
    {fuel : ℕ} {t : Transfer σ} (hfuel : count t.dev < fuel) :
    ∃ w, (poll regs idx ready fuel t : Run ε (BitVec 32 × Transfer σ)) =
      Run.returned (w, { t with dev := settle t.dev }) := by
  obtain ⟨w, dev, hpoll, rfl⟩ := poll_within
    (fun n s => count s = n ∧ settle s = settle t.dev) (fun s => s = settle t.dev) (ε := ε)
    (fun n s hs => by
      obtain ⟨rfl, hset⟩ := hs
      by_cases hzero : count s = 0
      · exact Or.inl ⟨(hidle s hzero).1, (hidle s hzero).2.trans hset⟩
      · obtain ⟨hready, hlt, hkeep⟩ := hbusy s hzero
        exact Or.inr ⟨hready, _, hlt, rfl, hkeep.trans hset⟩) ⟨rfl, rfl⟩ hfuel
  exact ⟨w, hpoll⟩

/-- Polling a flag that a device shows while it is busy. -/
theorem poll_flag {flag : BitVec 32} {n : ℕ} (hflag : flag.getLsbD n = true) (csr : σ → BitVec 32)
    (hbusy : ∀ s, count s ≠ 0 → (regs.rd idx s).1 = csr s ||| flag ∧
      count (regs.rd idx s).2 < count s ∧ settle (regs.rd idx s).2 = settle s)
    (hidle : ∀ s, count s = 0 → (regs.rd idx s).1 = csr s &&& ~~~flag ∧
      (regs.rd idx s).2 = settle s)
    {fuel : ℕ} {t : Transfer σ} (hfuel : count t.dev < fuel) :
    ∃ w, (poll regs idx (fun w => w &&& flag = 0) fuel t : Run ε (BitVec 32 × Transfer σ)) =
      Run.returned (w, { t with dev := settle t.dev }) := by
  apply poll_settles count settle _ _ hfuel
  · intro s hs
    obtain ⟨hrd, hlt, hsettle⟩ := hbusy s hs
    refine ⟨decide_eq_false fun hzero => ?_, hlt, hsettle⟩
    have hbit := congrArg (BitVec.getLsbD · n) hzero
    rw [hrd, BitVec.getLsbD_and, BitVec.getLsbD_or, hflag] at hbit
    simp at hbit
  · intro s hs
    obtain ⟨hrd, hsettle⟩ := hidle s hs
    refine ⟨decide_eq_true ?_, hsettle⟩
    rw [hrd, BitVec.and_assoc, BitVec.and_comm (~~~flag)]
    simp

end RegisterDriver

end XvcSupport
