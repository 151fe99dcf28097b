import Mathlib

namespace XvcSupport

/-- A program with questions in `ι` and answers in `ο`. -/
inductive Prog (ι ο α : Type) : Type
  | ret (a : α)
  | fail (e : String)
  | ask (q : ι) (k : ο → Prog ι ο α)

namespace Prog

variable {ι ο α β σ τ : Type}

def bind : Prog ι ο α → (α → Prog ι ο β) → Prog ι ο β
  | ret a, f => f a
  | fail e, _ => fail e
  | ask q k, f => ask q fun o => (k o).bind f

instance : Monad (Prog ι ο) where
  pure := ret
  bind := bind

/-- The question alone. -/
def put (q : ι) : Prog ι ο ο := ask q ret

abbrev Handler (ι ο σ : Type) : Type := ι → StateT σ (Except String) ο

/-- The program with its questions answered. -/
def run (h : Handler ι ο σ) : Prog ι ο α → StateT σ (Except String) α
  | ret a => pure a
  | fail e => throw e
  | ask q k => h q >>= fun o => (k o).run h

@[simp] theorem run_pure (h : Handler ι ο σ) (a : α) :
    (pure a : Prog ι ο α).run h = pure a := rfl

@[simp] theorem run_fail (h : Handler ι ο σ) (e : String) :
    (fail e : Prog ι ο α).run h = throw e := rfl

@[simp] theorem run_put (h : Handler ι ο σ) (q : ι) : (put q).run h = h q := by
  change (h q >>= pure) = h q
  rw [bind_pure]

@[simp] theorem run_bind (h : Handler ι ο σ) (p : Prog ι ο α) (f : α → Prog ι ο β) :
    (p >>= f).run h = p.run h >>= fun a => (f a).run h := by
  induction p with
  | ret a => rfl
  | fail e => rfl
  | ask q k ih =>
    change (h q >>= fun o => ((k o) >>= f).run h) = (h q >>= fun o => (k o).run h) >>= _
    rw [bind_assoc]
    congr 1
    funext o
    exact ih o

/-- Every question that the program puts meets `C` and what it returns meets `P`, as long as the
answers meet `A`. -/
def Asks (C : ι → Prop) (A : ι → ο → Prop) (P : α → Prop) : Prog ι ο α → Prop
  | ret a => P a
  | fail _ => True
  | ask q k => C q ∧ ∀ o, A q o → (k o).Asks C A P

variable {C : ι → Prop} {A : ι → ο → Prop}

theorem asks_pure {P : α → Prop} {a : α} (h : P a) : (pure a : Prog ι ο α).Asks C A P := h

theorem asks_put {P : ο → Prop} {q : ι} (hq : C q) (h : ∀ o, A q o → P o) :
    (put q : Prog ι ο ο).Asks C A P := ⟨hq, h⟩

theorem Asks.bind {P : β → Prop} {p : Prog ι ο α} {f : α → Prog ι ο β}
    (h : p.Asks C A fun a => (f a).Asks C A P) : (p >>= f).Asks C A P := by
  induction p with
  | ret a => exact h
  | fail e => trivial
  | ask q k ih => exact ⟨h.1, fun o ho => ih o (h.2 o ho)⟩

/-- Both raise the same exception, or both return the same value and leave related states. -/
def Agree (R : σ → τ → Prop) (x : Except String (α × σ)) (y : Except String (α × τ)) : Prop :=
  (∃ e, x = .error e ∧ y = .error e) ∨
    ∃ a s t, x = .ok (a, s) ∧ y = .ok (a, t) ∧ R s t

theorem run_agree {R : σ → τ → Prop} {h : Handler ι ο σ} {h' : Handler ι ο τ}
    (hstep : ∀ q s t, C q → R s t →
      Agree R (h q s) (h' q t) ∧ ∀ o s', h q s = .ok (o, s') → A q o)
    {P : α → Prop} {p : Prog ι ο α} (hp : p.Asks C A P) {s : σ} {t : τ} (hst : R s t) :
    Agree R (p.run h s) (p.run h' t) := by
  induction p generalizing s t with
  | ret a => exact Or.inr ⟨a, s, t, rfl, rfl, hst⟩
  | fail e => exact Or.inl ⟨e, rfl, rfl⟩
  | ask q k ih =>
    obtain ⟨hagree, hanswer⟩ := hstep q s t hp.1 hst
    change Agree R (h q s >>= fun r => (k r.1).run h r.2) (h' q t >>= fun r => (k r.1).run h' r.2)
    obtain ⟨e, hx, hy⟩ | ⟨o, s', t', hx, hy, hst'⟩ := hagree
    · rw [hx, hy]
      exact Or.inl ⟨e, rfl, rfl⟩
    · rw [hx, hy]
      exact ih o (hp.2 o (hanswer o s' hx)) hst'

end Prog

end XvcSupport
