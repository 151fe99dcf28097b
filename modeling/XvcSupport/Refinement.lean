import XvcSupport.WellFormed

namespace XvcSupport.AxisToJtag

open AxisToJtagPkg

variable {g : Generics} {clkDiv2 : ℕ} {tap : Tap} {s : Dev g} {ev : Bool × Bool} {fw fw0 : Fw g.W}
  {fs all : List (List (BitVec g.W))} {f : List (BitVec g.W)}

theorem serve_ne_nil (tap : Tap) (fw : Fw g.W) (hf : f ≠ []) : (serve g tap fw f).1 ≠ [] := by
  obtain ⟨data, payload, rfl⟩ := List.exists_cons_of_ne_nil hf
  cases h : idle g fw.xid fw.memValid data payload.isEmpty with
  | execute =>
    simp only [serve, h]
    split_ifs
    · simp
    · simp
  | _ => simp [serve, h]

/-- Only the last word of a frame has `TLAST`. -/
theorem countP_beats {W : ℕ} (ws : List (BitVec W)) :
    (beats ws).countP Prod.snd = if ws = [] then 0 else 1 := by
  induction ws with
  | nil => rfl
  | cons w ws ih =>
    rw [beats_cons, List.countP_cons, ih]
    cases ws with
    | nil => rfl
    | cons w' ws => simp

theorem countP_answers (hne : ∀ f ∈ fs, f ≠ []) :
    (answers tap fw fs).countP Prod.snd = fs.length := by
  induction fs generalizing fw with
  | nil => rfl
  | cons f fs ih =>
    have hreply := serve_ne_nil tap fw (hne f (by simp))
    rw [answers, List.countP_append, countP_beats, if_neg hreply,
      ih fun f' hf' => hne f' (List.mem_cons_of_mem _ hf'), List.length_cons, Nat.add_comm]

/-- The entity waits for a request, with what the frames leave behind in its registers and its
memory. -/
structure Awaits (s : Dev g) (fw : Fw g.W) : Prop where
  state : s.r.state = .idle
  src : s.src = []
  sent : s.streamBuf.tValid = false
  hist : s.hist = fw.hist
  stores : Stores s fw

theorem DevAt.awaits (h : DevAt clkDiv2 tap fw0 all 0 s) (hs : s.Sound ev) :
    Awaits s (afterAll tap fw0 all) := by
  obtain ⟨fw, hat, hd, hwait⟩ := h.end_idle hs
  obtain ⟨served, hall, -, hafter⟩ := hd.served
  rw [List.append_nil] at hall
  subst hall
  rw [hafter]
  exact ⟨hat.state, by simpa using hat.src, hwait, hat.quiet.hist, hat.stores⟩

/-- The entity refines `serve` on every sequence of frames that fit and do not break off within a
pair, whatever the gaps and stalls: what it has sent and clocked at any time is the beginning of
what the frames call for, with one end of a reply for each request; and when both neighbours act
again and again it sends and clocks all of it and waits for the next frame with what `serve`
leaves behind. -/
theorem refines_serve (hD : 0 < clkDiv2) (tap : Tap) (bufMem : ℕ → BitVec g.W)
    (memOut : BitVec g.W) (evs : ℕ → Bool × Bool) (fs : List (List (BitVec g.W)))
    (hfit : ∀ f ∈ fs, Fits g f) (htidy : AllTidy tap (Fw.init g.W) fs) :
    let out := answers tap (Fw.init g.W) fs
    let fw := afterAll tap (Fw.init g.W) fs
    let run := Dev.run clkDiv2 tap fs bufMem memOut evs
    out.countP Prod.snd = fs.length ∧
      (∀ t, (run t).out <+: out ∧ (run t).hist <+: fw.hist) ∧
      (Fair evs → ∃ T, ∀ t ≥ T, (run t).out = out ∧ Awaits (run t) fw) := by
  intro out fw run
  have hne : ∀ f ∈ fs, f ≠ [] := fun f hf => htidy.ne_nil hf
  have hgood : ∀ t, (run t).Sound (evs t) ∧ (run t).InRange (evs t) :=
    Dev.run_sound hD hfit htidy
  refine ⟨countP_answers hne, ?_, ?_⟩
  · intro t
    obtain ⟨n, hat⟩ := DevAt.run hD hne (fun t => (hgood t).1) (fun t => (hgood t).2) t
    exact hat.beginning (hgood t).1
  · intro hfair
    obtain ⟨T, hT⟩ := Dev.run_rests hD hne (fun t => (hgood t).1) (fun t => (hgood t).2) hfair
    exact ⟨T, fun t ht => ⟨((hT t ht).end (hgood t).1).2.1, (hT t ht).awaits (hgood t).1⟩⟩

/-- A query, a shift, its repeat and a frame with a bad version. -/
theorem refines_serve_fourOctets :
    ∃ T, ∀ t ≥ T, (Dev.run 1 (fun _ _ _ => true)
      [[0], [0x10100003, 0x5, 0xa], [0x10100003, 0x5, 0xa], [0xc0000000, 0]]
      (fun _ => 0) (0 : BitVec fourOctets.W) (fun _ => (true, true)) t).out =
        [(0x00000103, true), (0x10100003, false), (0xf, true), (0x10100003, false), (0xf, true),
          (0x20000001, true)] := by
  obtain ⟨-, -, hend⟩ := refines_serve (g := fourOctets) (Nat.one_pos : 0 < 1)
    (fun _ _ _ => true) (fun _ => 0) 0 (fun _ => (true, true))
    [[0], [0x10100003, 0x5, 0xa], [0x10100003, 0x5, 0xa], [0xc0000000, 0]]
    (by
      intro f hf
      exact fits_of_width (a := 5) rfl fun hnil => by subst hnil; simp at hf)
    ⟨fun h => absurd h (by decide), fun _ => Or.inl rfl, fun _ => Or.inl rfl,
      fun h => absurd h (by decide), trivial⟩
  obtain ⟨T, hT⟩ := hend ⟨fun t => ⟨t, le_rfl, rfl⟩, fun t => ⟨t, le_rfl, rfl⟩⟩
  exact ⟨T, fun t ht => (hT t ht).1.trans (by decide +kernel)⟩

end XvcSupport.AxisToJtag
