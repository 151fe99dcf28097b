import XvcSupport.Whole

namespace XvcSupport.AxisToJtag

open AxisToJtagPkg

variable {g : Generics} {tap : Tap}

/-- The number of bits that a request announces. -/
def announced (data : BitVec g.W) : ℕ := (getLen data).toNat + 1

theorem announced_le (data : BitVec g.W) : announced data ≤ 2 ^ 20 := by
  have := (getLen data).isLt
  unfold announced
  omega

/-- The bits of the TMS and TDI vectors. -/
def requestBits (data : BitVec g.W) (payload : List (BitVec g.W)) : List (Bool × Bool) :=
  vecBits (announced data) (pairs payload)

/-- The TDO words after the edges `hist`. -/
def requestTdo (tap : Tap) (hist : List Edge) (data : BitVec g.W) (payload : List (BitVec g.W)) :
    List (BitVec g.W) :=
  (List.range (wordCount g.W (announced data))).map
    (tdoWord g.W (announced data) (tdoAt tap hist (requestBits data payload)))

/-- The levels of TMS and TDI at the rises of TCK. -/
def rises (hist : List Edge) : List (Bool × Bool) :=
  (hist.filter Edge.rise).map fun e => (e.tms, e.tdi)

theorem rises_append (h h' : List Edge) : rises (h ++ h') = rises h ++ rises h' := by
  simp [rises]

theorem rises_edgesOf (bits : List (Bool × Bool)) : rises (edgesOf bits) = bits := by
  induction bits with
  | nil => rfl
  | cons b bits ih =>
    have h : edgesOf (b :: bits) = [⟨true, b.1, b.2⟩, ⟨false, b.1, b.2⟩] ++ edgesOf bits := rfl
    rw [h, rises_append, ih]
    rfl

theorem le_mul_wordCount {W : ℕ} (hW : 0 < W) (n : ℕ) : n ≤ W * wordCount W n := by
  by_contra hcon
  have hlt : wordCount W n * W < n := by
    rw [Nat.mul_comm]
    omega
  have := (AxisToJtagCore.Task.lt_wordCount hW).mpr hlt
  omega

variable {data : BitVec g.W} {payload : List (BitVec g.W)}

theorem shiftLen_complete (hpay : 2 * wordCount g.W (announced data) ≤ payload.length) :
    shiftLen g data payload = announced data := by
  have hle := le_mul_wordCount g.W_pos (announced data)
  have hmul : g.W * wordCount g.W (announced data) ≤ g.W * (payload.length / 2) :=
    Nat.mul_le_mul_left _ (by omega)
  rw [shiftLen, pairs_length]
  unfold announced at *
  omega

theorem wordCount_pos {W n : ℕ} (hW : 0 < W) (hn : 0 < n) : 0 < wordCount W n :=
  (AxisToJtagCore.Task.lt_wordCount hW).mpr (by omega)

theorem idle_execute {xid : BitVec 8} {memValid : Bool} (hver : getVersion data = proVersn)
    (hcmd : getCommand data = cmdTrans) (hlen : checkLen g data = true)
    (hnew : xidIsNew g data xid memValid = true) :
    idle g xid memValid data false = .execute := by
  simp [idle, hver, hcmd, hlen, hnew, cmdTrans, cmdQuery]

theorem serve_complete {fw : Fw g.W} (hex : idle g fw.xid fw.memValid data false = .execute)
    (hpay : 2 * wordCount g.W (announced data) ≤ payload.length) :
    (serve g tap fw (data :: payload)).1 = data :: requestTdo tap fw.hist data payload ∧
      (serve g tap fw (data :: payload)).2.hist =
        fw.hist ++ edgesOf (requestBits data payload) := by
  have hpos := wordCount_pos g.W_pos (Nat.succ_pos (getLen data).toNat)
  have hpos' : 0 < wordCount g.W (announced data) := hpos
  have hne : payload.isEmpty = false := by
    cases payload with
    | nil => simp at hpay; omega
    | cons w ws => rfl
  rw [← hne] at hex
  rw [serve_execute hex (by omega), shiftTdo, shiftBits, shiftLen_complete hpay]
  exact ⟨rfl, rfl⟩

/-- For a power-of-two width, every complete shift request with a new transaction ID has TCK
rise once for each announced bit, with TMS and TDI as the vectors have them, and is answered by
its header and the words of the sampled TDO; all its words are absorbed.  This holds after any
frames that do not break off within a pair, and with any gaps and stalls: what has been sent at
any time is the beginning of it, and all is sent in the end when both neighbours act again and
again. -/
theorem complete_shift {a : ℕ} (ha : g.W = 2 ^ a) {clkDiv2 : ℕ} (hD : 0 < clkDiv2) (tap : Tap)
    (bufMem : ℕ → BitVec g.W) (memOut : BitVec g.W) (evs : ℕ → Bool × Bool)
    (pre : List (List (BitVec g.W))) (hpre : AllTidy tap (Fw.init g.W) pre) (data : BitVec g.W)
    (payload : List (BitVec g.W)) (hver : getVersion data = proVersn)
    (hcmd : getCommand data = cmdTrans)
    (hnew : xidIsNew g data (afterAll tap (Fw.init g.W) pre).xid
      (afterAll tap (Fw.init g.W) pre).memValid = true)
    (hmem : g.memDepth = 0 ∨ wordCount g.W (announced data) ≤ g.memDepth)
    (hpay : 2 * wordCount g.W (announced data) ≤ payload.length) :
    let before := (afterAll tap (Fw.init g.W) pre).hist
    let hist := before ++ edgesOf (requestBits data payload)
    let out := answers tap (Fw.init g.W) pre ++
      beats (data :: requestTdo tap before data payload)
    let run := Dev.run clkDiv2 tap (pre ++ [data :: payload]) bufMem memOut evs
    (requestBits data payload).length = announced data ∧
      rises hist = rises before ++ requestBits data payload ∧
      (∀ t, (run t).out <+: out ∧ (run t).hist <+: hist) ∧
      (Fair evs → ∃ T, ∀ t ≥ T, (run t).src = [] ∧ (run t).out = out ∧ (run t).hist = hist) := by
  intro before hist out run
  have htidy : AllTidy tap (Fw.init g.W) (pre ++ [data :: payload]) :=
    allTidy_append.mpr ⟨hpre, fun _ => Or.inr (Or.inr hpay), trivial⟩
  have hfit : ∀ f ∈ pre ++ [data :: payload], Fits g f := fun f hf =>
    fits_of_width ha (htidy.ne_nil hf)
  have hex := idle_execute hver hcmd ((checkLen_iff g ha data).mpr hmem) hnew
  obtain ⟨hreply, hafter⟩ : (serve g tap _ _).1 = _ ∧ _ := serve_complete hex hpay
  have hout : answers tap (Fw.init g.W) (pre ++ [data :: payload]) = out := by
    rw [answers_append, answers, hreply, answers, List.append_nil]
  have hhist : (afterAll tap (Fw.init g.W) (pre ++ [data :: payload])).hist = hist := by
    rw [afterAll_append]
    exact hafter
  have hgood : ∀ t, (run t).Sound (evs t) ∧ (run t).InRange (evs t) :=
    Dev.run_sound hD hfit htidy
  have hne : ∀ f ∈ pre ++ [data :: payload], f ≠ [] := fun f hf => htidy.ne_nil hf
  refine ⟨by simp [requestBits, vecBits], ?_, ?_, ?_⟩
  · rw [rises_append, rises_edgesOf]
  · intro t
    obtain ⟨n, hat⟩ := DevAt.run hD hne (fun t => (hgood t).1) (fun t => (hgood t).2) t
    rw [← hout, ← hhist]
    exact hat.beginning (hgood t).1
  · intro hfair
    rw [← hout, ← hhist]
    exact Dev.run_ends hD hne (fun t => (hgood t).1) (fun t => (hgood t).2) hfair

def fourOctets : Generics := .ofSize 4 16 (by decide)

/-- A query, and then a request of eight bits with a surplus word. -/
theorem complete_shift_eight_bits :
    ∃ T, ∀ t ≥ T, (Dev.run 1 (fun _ _ _ => false) [[0], [0x10100007, 0xa5, 0x3c, 0xff]]
      (fun _ => 0) (0 : BitVec fourOctets.W) (fun _ => (true, true)) t).hist =
        edgesOf (requestBits (g := fourOctets) 0x10100007 [0xa5, 0x3c, 0xff]) := by
  obtain ⟨-, -, -, hend⟩ := complete_shift (g := fourOctets) (a := 5) rfl one_pos
    (fun _ _ _ => false) (fun _ => 0) 0 (fun _ => (true, true)) [[0]]
    ⟨fun h => absurd h (by decide), trivial⟩ 0x10100007 [0xa5, 0x3c, 0xff]
    (by decide) (by decide) rfl (by decide) (by decide)
  obtain ⟨T, hT⟩ := hend ⟨fun t => ⟨t, le_rfl, rfl⟩, fun t => ⟨t, le_rfl, rfl⟩⟩
  exact ⟨T, fun t ht => (hT t ht).2.2⟩

end XvcSupport.AxisToJtag
