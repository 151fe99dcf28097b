import XvcSupport.WellFormed

namespace XvcSupport.AxisToJtag

open AxisToJtagPkg AxisToJtagCore

variable {g : Generics}

theorem wordCount_le {W : ℕ} (hW : 0 < W) {n c : ℕ} : wordCount W n ≤ c ↔ n ≤ c * W := by
  rw [← not_lt, ← not_lt, Task.lt_wordCount hW]

theorem le_two_pow_log2 (g : Generics) : g.W ≤ 2 ^ log2 g.W := by
  have h2 : ¬ g.W < 2 := by have := g.le_W; omega
  rw [log2, if_neg h2]
  exact Nat.le_pow_clog (by decide) _

def tooLong (g : Generics) : BitVec g.W := putSlice 0 0 (BitVec.ofNat 20 (g.memDepth * g.W))

theorem announced_tooLong (h : g.memDepth * g.W < 2 ^ 20) :
    announced (tooLong g) = g.memDepth * g.W + 1 := by
  have h32 := g.le_W
  rw [announced, getLen, tooLong, extractLsb'_putSlice_self _ _ _ (by omega), BitVec.toNat_ofNat,
    Nat.mod_eq_of_lt h]

/-- The length check admits just the requests whose words fit into the memory when the width is
a power of two, or when every request fits; and then all writes stay within the memory. -/
theorem checkLen_exact_iff (g : Generics) (hdepth : 0 < g.memDepth) :
    ((∀ data : BitVec g.W, checkLen g data = true ↔
        wordCount g.W (announced data) ≤ g.memDepth) ∧
      ∀ (clkDiv2 : ℕ) (tap : Tap) (bufMem : ℕ → BitVec g.W) (memOut : BitVec g.W)
        (evs : ℕ → Bool × Bool) (all : List (List (BitVec g.W))), 0 < clkDiv2 →
        AllTidy tap (Fw.init g.W) all → ∀ t,
        let s := Dev.run clkDiv2 tap all bufMem memOut evs t
        (s.comb (evs t).1 (evs t).2).tdoWen = true → s.r.widx < g.memDepth) ↔
      (∃ a, g.W = 2 ^ a) ∨ 2 ^ 20 ≤ g.memDepth * g.W := by
  have hlog := le_two_pow_log2 g
  have hpow : 0 < 2 ^ log2 g.W := Nat.two_pow_pos _
  constructor
  · rintro ⟨hexact, -⟩
    by_contra! hcon
    have hlt : g.W < 2 ^ log2 g.W := lt_of_le_of_ne hlog (hcon.1 _)
    have hann := announced_tooLong hcon.2
    have hmul := Nat.mul_lt_mul_of_pos_left hlt hdepth
    have hyes : checkLen g (tooLong g) = true := by
      rw [checkLen_iff_log2]
      refine Or.inr ((wordCount_le hpow).mpr ?_)
      unfold announced at hann
      omega
    have hno := (wordCount_le g.W_pos).mp ((hexact _).mp hyes)
    omega
  · intro h
    have hexact : ∀ data : BitVec g.W, checkLen g data = true ↔
        wordCount g.W (announced data) ≤ g.memDepth := by
      intro data
      rcases h with ⟨a, ha⟩ | hbig
      · rw [checkLen_iff g ha]
        exact or_iff_right (by omega)
      · have hann := announced_le data
        have hmul := Nat.mul_le_mul_left g.memDepth hlog
        refine iff_of_true ?_ ((wordCount_le g.W_pos).mpr (by omega))
        rw [checkLen_iff_log2]
        refine Or.inr ((wordCount_le hpow).mpr ?_)
        unfold announced at hann
        omega
    refine ⟨hexact, ?_⟩
    intro clkDiv2 tap bufMem memOut evs all hD htidy t s hwen
    have hfit : ∀ f ∈ all, Fits g f := by
      intro f hf
      cases f with
      | nil => exact (htidy.ne_nil hf rfl).elim
      | cons data payload =>
        exact fun hc => Or.inr
          ((wordCount_mono (Nat.min_le_left _ _)).trans ((hexact data).mp hc))
    exact (Dev.run_sound hD hfit htidy t).2 hdepth hwen

theorem checkLen_exact_fourOctets :
    checkLen fourOctets 0x10100200 = true ↔
      wordCount fourOctets.W (announced (0x10100200 : BitVec fourOctets.W)) ≤ 16 :=
  ((checkLen_exact_iff fourOctets (by decide)).mpr (Or.inl ⟨5, rfl⟩)).1 0x10100200

/-- A target with five octets to the word and room for one word. -/
def fiveOctets : Generics where
  axisWidth := 5
  memDepth := 1
  tckBits := 0
  four_le := by decide
  le_sixteen := by decide
  memDepth_lt := by decide

/-- A request for 41 bits passes the check, and its second TDO word is written behind the end of
the memory. -/
theorem write_behind_memory :
    checkLen fiveOctets 0x10100028 = true ∧
      ¬ wordCount fiveOctets.W (announced (g := fiveOctets) 0x10100028) ≤ fiveOctets.memDepth ∧
      ∃ t < 200, ((Dev.run (g := fiveOctets) 1 (fun _ _ _ => false) [[0x10100028, 1, 2, 3, 4]]
          (fun _ => 0) 0 (fun _ => (true, true)) t).comb true true).tdoWen = true ∧
        (Dev.run (g := fiveOctets) 1 (fun _ _ _ => false) [[0x10100028, 1, 2, 3, 4]]
          (fun _ => 0) 0 (fun _ => (true, true)) t).r.widx = 1 := by
  decide +kernel

end XvcSupport.AxisToJtag
