import XvcSupport.Device
import XvcSupport.Task

namespace XvcSupport.AxisToJtag

open AxisToJtagPkg AxisToJtagCore JtagSerDesCore

section Beats

variable {W : ℕ}

@[simp] theorem beats_nil : beats ([] : List (BitVec W)) = [] := rfl

@[simp] theorem beats_cons (w : BitVec W) (ws : List (BitVec W)) :
    beats (w :: ws) = (w, ws.isEmpty) :: beats ws := by
  cases ws <;> rfl

@[simp] theorem beats_length (ws : List (BitVec W)) : (beats ws).length = ws.length := by
  induction ws with
  | nil => rfl
  | cons w ws ih => simp [ih]

theorem beats_eq_nil {ws : List (BitVec W)} : beats ws = [] ↔ ws = [] := by
  cases ws <;> simp

theorem beats_drop {ws : List (BitVec W)} {a : ℕ} (ha : a < ws.length) :
    beats (ws.drop a) =
      (ws.getD a 0, decide (a + 1 = ws.length)) :: beats (ws.drop (a + 1)) := by
  rw [List.drop_eq_getElem_cons ha, beats_cons, List.getD_eq_getElem _ _ ha]
  congr 2
  rw [Bool.eq_iff_iff, List.isEmpty_iff, List.drop_eq_nil_iff, decide_eq_true_iff]
  omega

theorem suffix_of_length {W : ℕ} {served fs pre post : List (List (BitVec W))}
    (hne : ∀ f ∈ served ++ fs, f ≠ []) (hall : served ++ fs = pre ++ post)
    (hlen : (fs.flatMap beats).length ≤ (post.flatMap beats).length) : fs <:+ post := by
  rcases List.append_eq_append_iff.mp hall with ⟨a, rfl, rfl⟩ | ⟨a, rfl, rfl⟩
  · cases a with
    | nil => exact List.suffix_rfl
    | cons f a =>
      have := List.length_pos_iff.mpr (hne f (by simp))
      rw [List.flatMap_append, List.flatMap_cons, List.length_append, List.length_append,
        beats_length] at hlen
      omega
  · exact List.suffix_append _ _

theorem suffix_of_beats {W : ℕ} {served fs pre post : List (List (BitVec W))}
    (hne : ∀ f ∈ served ++ fs, f ≠ []) (hall : served ++ fs = pre ++ post)
    (hsrc : fs.flatMap beats = post.flatMap beats) : fs = post := by
  have h1 := suffix_of_length hne hall (congrArg List.length hsrc).le
  have h2 := suffix_of_length (hall ▸ hne) hall.symm (congrArg List.length hsrc).ge
  exact h1.eq_of_length_le h2.length_le

end Beats

section Shift

variable {g : Generics}

theorem Generics.W_pos (g : Generics) : 0 < g.W := by
  have := g.le_W
  omega

def taskOf (fw : Fw g.W) (data : BitVec g.W) (payload : List (BitVec g.W)) : Task g.W where
  len := getLen data
  payload := payload
  hist := fw.hist

theorem pairs_length {W : ℕ} (ws : List (BitVec W)) : (pairs ws).length = ws.length / 2 := by
  fun_induction pairs ws with
  | case1 tms tdi rest ih => simp only [List.length_cons, ih]; omega
  | case2 ws hws =>
    match ws, hws with
    | [], _ => simp
    | [_], _ => simp
    | tms :: tdi :: rest, h => exact absurd rfl (h tms tdi rest)

theorem pairs_getD {W : ℕ} (ws : List (BitVec W)) {j : ℕ} (hj : j < ws.length / 2) :
    (pairs ws).getD j (0, 0) = (ws.getD (2 * j) 0, ws.getD (2 * j + 1) 0) := by
  fun_induction pairs ws generalizing j with
  | case1 tms tdi rest ih =>
    cases j with
    | zero => rfl
    | succ j =>
      have hj' : j < rest.length / 2 := by simp only [List.length_cons] at hj; omega
      have h := ih hj'
      simpa [Nat.mul_succ] using h
  | case2 ws hws =>
    match ws, hws with
    | [], _ => simp at hj
    | [_], _ => simp at hj
    | tms :: tdi :: rest, h => exact absurd rfl (h tms tdi rest)

variable {fw : Fw g.W} {data : BitVec g.W} {payload : List (BitVec g.W)}

theorem taskOf_bits : (taskOf fw data payload).job.bits = shiftLen g data payload := by
  simp only [Task.job, shiftLen, pairs_length, Task.total, Task.pairCount, taskOf]

theorem taskOf_bit {q : ℕ} (hq : q < shiftLen g data payload) :
    (taskOf fw data payload).job.bit q =
      (((pairs payload).getD (q / g.W) (0, 0)).1.getLsbD (q % g.W),
        ((pairs payload).getD (q / g.W) (0, 0)).2.getLsbD (q % g.W)) := by
  have hW := g.W_pos
  have hlt : q / g.W < payload.length / 2 := by
    rw [Nat.div_lt_iff_lt_mul hW, Nat.mul_comm]
    unfold shiftLen at hq
    rw [pairs_length] at hq
    omega
  rw [pairs_getD _ hlt]
  rfl

theorem shiftBits_eq {n : ℕ} (hn : n ≤ shiftLen g data payload) :
    (shiftBits g data payload).take n =
      (List.range n).map (taskOf fw data payload).job.bit := by
  rw [shiftBits, vecBits, ← List.map_take, List.take_range, Nat.min_eq_left hn]
  apply List.map_congr_left
  intro q hq
  rw [taskOf_bit (lt_of_lt_of_le (List.mem_range.mp hq) hn)]

theorem shiftBits_length : (shiftBits g data payload).length = shiftLen g data payload := by
  simp [shiftBits, vecBits]

theorem tdoAt_eq {tap : Tap} {q : ℕ} (hq : q < shiftLen g data payload) :
    tdoAt tap fw.hist (shiftBits g data payload) q =
      (taskOf fw data payload).job.sample tap q := by
  have hbit : (shiftBits g data payload).getD q (false, false) =
      (taskOf fw data payload).job.bit q := by
    rw [taskOf_bit hq, List.getD_eq_getElem _ _ (by rw [shiftBits_length]; exact hq)]
    simp [shiftBits, vecBits]
  rw [tdoAt, hbit, shiftBits_eq hq.le]
  rfl

theorem wordCount_min {W : ℕ} (hW : 0 < W) (n k : ℕ) :
    wordCount W (min n (W * k)) = min (wordCount W n) k := by
  apply eq_of_forall_lt_iff
  intro c
  rw [Task.lt_wordCount hW, lt_min_iff, lt_min_iff, Task.lt_wordCount hW, Nat.mul_comm W k,
    Nat.mul_lt_mul_right hW]

theorem taskOf_count :
    wordCount g.W (shiftLen g data payload) = (taskOf fw data payload).count := by
  rw [shiftLen, wordCount_min g.W_pos, pairs_length]
  rfl

theorem shiftTdo_eq (tap : Tap) :
    shiftTdo g tap fw.hist data payload =
      (List.range (taskOf fw data payload).count).map ((taskOf fw data payload).tdoWord tap) := by
  rw [shiftTdo, taskOf_count]
  apply List.map_congr_left
  intro j _
  apply BitVec.eq_of_getLsbD_eq
  intro i hi
  simp only [tdoWord, Task.tdoWord, BitVec.getLsbD_ofFnLE, hi, dif_pos, taskOf_bits]
  by_cases hlt : j * g.W + i < shiftLen g data payload
  · rw [tdoAt_eq hlt]
  · simp [hlt]

theorem shiftTdo_length (tap : Tap) :
    (shiftTdo g tap fw.hist data payload).length = (taskOf fw data payload).count := by
  rw [shiftTdo_eq]
  simp

theorem shiftTdo_getD {tap : Tap} {j : ℕ} (hj : j < (taskOf fw data payload).count) :
    (shiftTdo g tap fw.hist data payload).getD j 0 = (taskOf fw data payload).tdoWord tap j := by
  rw [shiftTdo_eq, List.getD_eq_getElem _ _ (by simpa using hj)]
  simp

theorem taskOf_hist :
    (taskOf fw data payload).job.histOf (taskOf fw data payload).count =
      fw.hist ++ edgesOf (shiftBits g data payload) := by
  have hle : shiftLen g data payload ≤ (taskOf fw data payload).count * g.W := by
    rw [← taskOf_count]
    by_contra hcon
    have := (Task.lt_wordCount g.W_pos).mpr (not_le.mp hcon)
    omega
  have hbits : (shiftBits g data payload).take (shiftLen g data payload) =
      (List.range (shiftLen g data payload)).map (taskOf fw data payload).job.bit :=
    shiftBits_eq le_rfl
  rw [← shiftBits_length, List.take_length, shiftBits_length] at hbits
  rw [Job.histOf, taskOf_bits, Nat.min_eq_right hle, Job.histAt, ← hbits]
  rfl

end Shift

section Sequence

variable {g : Generics} (tap : Tap)

def answers : Fw g.W → List (List (BitVec g.W)) → List (BitVec g.W × Bool)
  | _, [] => []
  | fw, f :: fs => beats (serve g tap fw f).1 ++ answers (serve g tap fw f).2 fs

/-- What the frames leave behind. -/
def afterAll (fw : Fw g.W) (fs : List (List (BitVec g.W))) : Fw g.W :=
  fs.foldl (fun fw f => (serve g tap fw f).2) fw

variable {tap}

@[simp] theorem afterAll_singleton (fw : Fw g.W) (f : List (BitVec g.W)) :
    afterAll tap fw [f] = (serve g tap fw f).2 := rfl

@[simp] theorem answers_singleton (fw : Fw g.W) (f : List (BitVec g.W)) :
    answers tap fw [f] = beats (serve g tap fw f).1 := List.append_nil _

theorem afterAll_append (fw : Fw g.W) (fs fs' : List (List (BitVec g.W))) :
    afterAll tap fw (fs ++ fs') = afterAll tap (afterAll tap fw fs) fs' := by
  simp [afterAll]

theorem answers_append (fw : Fw g.W) (fs fs' : List (List (BitVec g.W))) :
    answers tap fw (fs ++ fs') = answers tap fw fs ++ answers tap (afterAll tap fw fs) fs' := by
  induction fs generalizing fw with
  | nil => rfl
  | cons f fs ih => simp [answers, ih, afterAll]

end Sequence

end XvcSupport.AxisToJtag
