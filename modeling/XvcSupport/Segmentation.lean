import XvcSupport.Connection

/-!
# Independence of TCP segmentation

The connection is compared with a reader of the plain stream that knows no buffer:
octets received but not consumed, followed by those to come, are what the plain reader
has in front of it.  Whatever the cuts, both make the same calls, send the same octets
and throw at the same message.
-/

namespace XvcSupport.XvcConn

open JtagDriver

section Plain

variable (cfg : Config) (drv : Behaviour) (sup : ℕ)

abbrev Plain := Tx × List Byte

/-- The stream must hold `n` octets. -/
def Plain.need (n : ℕ) (x : Plain) : Progress × Plain :=
  if x.2.length < n then (.threw readFailed, x) else (.returned, x)

def Plain.lift (x : Plain) (r : Progress × Tx) : Progress × Plain := (r.1, (r.2, x.2))

def Plain.drop (n : ℕ) (x : Plain) : Plain := (x.1, x.2.drop n)

def Plain.message (x : Plain) : Progress × Plain :=
  andThen (Plain.need 2 x) fun x =>
    if slice (memOf x.2) 0 2 = ascii "ge" then
      andThen (Plain.need 8 x) fun x =>
        andThen (x.lift (x.1.getinfo drv cfg.maxVecLen)) fun x => (.returned, x.drop 8)
    else if slice (memOf x.2) 0 2 = ascii "se" then
      andThen (Plain.need 11 x) fun x =>
        andThen (x.lift (x.1.settck drv (memOf x.2))) fun x => (.returned, x.drop 11)
    else if slice (memOf x.2) 0 2 = ascii "sh" then
      andThen (Plain.need 10 x) fun x =>
        let bits := announced (memOf x.2)
        if vecBytes bits > cfg.maxVecLen then (.threw tooBig, x)
        else
          andThen (Plain.need (2 * vecBytes bits) (x.drop 10)) fun x =>
            andThen (x.lift (x.1.shift drv sup bits (memOf x.2))) fun x =>
              (.returned, x.drop (2 * vecBytes bits))
    else (.threw unsupported, x)

def Tx.flushed (t : Tx) : Tx :=
  { t with sent := t.sent ++ slice t.txb 0 t.tl, tl := 0, served := t.served + 1 }

def Plain.turn (x : Plain) : Progress × Plain :=
  andThen (Plain.need 1 x) fun x =>
    andThen (x.message cfg drv sup) fun x => (.returned, (x.1.flushed, x.2))

def Plain.turns : ℕ → Plain → Progress × Plain
  | 0, x => (.running, x)
  | n + 1, x => andThen (x.turn cfg drv sup) (Plain.turns n)

end Plain

/-- What the connection still has to consume. -/
def Conn.pending (c : Conn) : List Byte := slice c.rxb c.rp c.rl ++ c.rest

theorem Conn.pending_length (c : Conn) : c.pending.length = c.rl + c.rest.length := by
  simp [Conn.pending]

theorem Conn.at_eq (c : Conn) {i : ℕ} (h : i < c.rl) : c.at i = memOf c.pending i := by
  rw [memOf, Conn.pending, List.getD_append _ _ _ _ (by simpa using h), getD_slice _ _ h]
  rfl

theorem slice_congr {m m' : Mem} {p n : ℕ} (h : ∀ i, p ≤ i → i < p + n → m i = m' i) :
    slice m p n = slice m' p n := by
  apply List.map_congr_left
  intro i hi
  have := List.mem_range.mp hi
  exact h _ (by omega) (by omega)

theorem Conn.slice_at (c : Conn) {p n : ℕ} (h : p + n ≤ c.rl) :
    slice c.at p n = slice (memOf c.pending) p n :=
  slice_congr fun _ _ hi => c.at_eq (by omega)

section Sim

variable (B : ℕ)

/-- The receive buffer is large enough for all that has been done with it. -/
def Conn.Bounded (c : Conn) : Prop := c.peak ≤ B ∧ c.rp + c.rl ≤ B

/-- The connection and the plain reader went the same way; when they go on, they have
the same octets before them and the buffer satisfies `P`. -/
structure Sim (P : Conn → Prop) (r : Progress × Conn) (r' : Progress × Plain) : Prop where
  progress : r.1 = r'.1
  tx : r.2.toTx = r'.2.1
  bounded : r.2.Bounded B
  goesOn : r.1 = .returned → r.2.pending = r'.2.2 ∧ P r.2

variable {B}

theorem Sim.andThen {P Q : Conn → Prop} {r : Progress × Conn} {r' : Progress × Plain}
    {k : Conn → Progress × Conn} {k' : Plain → Progress × Plain} (h : Sim B P r r')
    (hk : ∀ c : Conn, c.Bounded B → P c → Sim B Q (k c) (k' (c.toTx, c.pending))) :
    Sim B Q (XvcConn.andThen r k) (XvcConn.andThen r' k') := by
  obtain ⟨p, c⟩ := r
  obtain ⟨p', x⟩ := r'
  obtain ⟨hp, htx, hb, hgo⟩ := h
  simp only at hp htx hb hgo
  subst hp
  cases p with
  | returned =>
    obtain ⟨hpend, hP⟩ := hgo rfl
    have hx : x = (c.toTx, c.pending) := Prod.ext htx.symm hpend.symm
    rw [hx]
    exact hk c hb hP
  | _ => exact ⟨rfl, htx, hb, fun h => by cases h⟩

theorem Conn.read_spec (c : Conn) (io : Io) {k : ℕ} (hk : 0 < k) (hne : c.rest ≠ []) (n : ℕ) :
    let r := c.read io (c.rp + n) k
    0 < r.1 ∧ r.1 ≤ k ∧ r.1 ≤ c.rest.length ∧
      slice r.2.rxb c.rp (n + r.1) ++ r.2.rest = slice c.rxb c.rp n ++ c.rest := by
  have hlen : 0 < c.rest.length := List.length_pos_iff.mpr hne
  intro r
  have hr : r.1 = min (io.reads c.nReads + 1) (min k c.rest.length) := rfl
  refine ⟨by omega, by omega, by omega, ?_⟩
  have hlow : slice r.2.rxb c.rp n = slice c.rxb c.rp n :=
    slice_congr fun i _ hi => memcpy_outside (Or.inl hi)
  have hhigh : (List.range r.1).map (fun i => r.2.rxb (c.rp + (n + i))) = c.rest.take r.1 := by
    apply List.ext_getElem
    · rw [List.length_map, List.length_range, List.length_take]
      omega
    · intro i hi _
      have hi' : i < r.1 := by simpa using hi
      have hin : r.2.rxb (c.rp + (n + i)) = memOf c.rest (i + 0) := by
        rw [← Nat.add_assoc]
        exact memcpy_inside hi'
      simp only [List.getElem_map, List.getElem_range, hin, List.getElem_take]
      exact List.getD_eq_getElem _ _ (by omega)
  have hsplit : slice r.2.rxb c.rp (n + r.1) =
      slice r.2.rxb c.rp n ++ (List.range r.1).map (fun i => r.2.rxb (c.rp + (n + i))) := by
    simp only [slice, List.range_add, List.map_append, List.map_map]
    rfl
  have hrest : r.2.rest = c.rest.drop r.1 := rfl
  rw [hsplit, hlow, hhigh, hrest, List.append_assoc, List.take_append_drop]

/-- The loop of `fill` completes the buffer to `n + k` octets, or finds the end of the
stream. -/
theorem Conn.fillLoop_spec (c : Conn) (io : Io) (k n : ℕ) :
    let r := c.fillLoop io k (c.rp + n)
    r.2.toTx = c.toTx ∧ r.2.rp = c.rp ∧ r.2.rl = c.rl ∧ r.2.peak ≤ max c.peak (c.rp + n + k) ∧
      if c.rest.length < k then r.1 = .threw readFailed
      else r.1 = .returned ∧
        slice r.2.rxb c.rp (n + k) ++ r.2.rest = slice c.rxb c.rp n ++ c.rest := by
  induction k using Nat.strong_induction_on generalizing c n with
  | _ k ih =>
    rw [Conn.fillLoop]
    by_cases hk : k = 0
    · subst hk
      simp
    rw [if_neg hk]
    by_cases hne : c.rest = []
    · have h0 : (c.read io (c.rp + n) k).1 = 0 := by simp [Conn.read, hne]
      have hlt : c.rest.length < k := by
        rw [hne]
        exact Nat.pos_of_ne_zero hk
      rw [if_pos h0]
      refine ⟨rfl, rfl, rfl, le_rfl, ?_⟩
      rw [if_pos hlt]
    · obtain ⟨hpos, hlek, hlen, hpend⟩ := c.read_spec io (Nat.pos_of_ne_zero hk) hne n
      set r := c.read io (c.rp + n) k with hr
      have hrp : r.2.rp = c.rp := rfl
      have hpeak : r.2.peak = max c.peak (c.rp + n + k) := rfl
      have hrest : r.2.rest.length = c.rest.length - r.1 := List.length_drop
      have h := ih (k - r.1) (by omega) r.2 (n + r.1)
      rw [if_neg (by omega)]
      rw [hrp, hpeak, hrest, ← Nat.add_assoc] at h
      obtain ⟨h1, h2, h3, h4, h5⟩ := h
      refine ⟨h1, h2, h3, h4.trans (by omega), ?_⟩
      by_cases hshort : c.rest.length < k
      · rw [if_pos (by omega)] at h5
        rwa [if_pos hshort]
      · rw [if_neg (by omega), hpend, show n + r.1 + (k - r.1) = n + k by omega] at h5
        rwa [if_neg hshort]

theorem Conn.fill_sim (c : Conn) (io : Io) {n : ℕ} (hb : c.Bounded B) (hn : c.rp + n ≤ B) :
    Sim B (fun c' => c'.rp = c.rp ∧ c'.rl = max c.rl n) (c.fill io n)
      (Plain.need n (c.toTx, c.pending)) := by
  obtain ⟨hpeak, hfill⟩ := hb
  have hplen := c.pending_length
  unfold Conn.fill Plain.need
  by_cases hle : n ≤ c.rl
  · rw [if_pos hle, if_neg (by dsimp only; omega)]
    exact ⟨rfl, rfl, ⟨hpeak, hfill⟩, fun _ => ⟨rfl, rfl, (max_eq_left hle).symm⟩⟩
  rw [if_neg hle]
  have h := c.fillLoop_spec io (n - c.rl) c.rl
  obtain ⟨h1, h2, h3, h4, h5⟩ := h
  cases hr : c.fillLoop io (n - c.rl) (c.rp + c.rl) with
  | mk p c' =>
    rw [hr] at h1 h2 h3 h4 h5
    dsimp only at h1 h2 h3 h4 h5 ⊢
    have hpk : c'.peak ≤ B := h4.trans (by omega)
    by_cases hshort : c.rest.length < n - c.rl
    · rw [if_pos hshort] at h5
      rw [if_pos (by omega), h5]
      exact ⟨rfl, h1, ⟨hpk, by dsimp only; omega⟩, fun h => by cases h⟩
    · rw [if_neg hshort] at h5
      rw [if_neg (by omega), h5.1]
      refine ⟨rfl, h1, ⟨hpk, by dsimp only; omega⟩, fun _ => ⟨?_, h2, by dsimp only; omega⟩⟩
      have hpend := h5.2
      rw [show c.rl + (n - c.rl) = n by omega] at hpend
      rw [Conn.pending, h2]
      exact hpend

theorem Conn.bump_pending (c : Conn) {n : ℕ} (h : n ≤ c.rl) :
    (c.bump n).pending = c.pending.drop n := by
  have hd : c.pending.drop n = slice c.rxb (c.rp + n) (c.rl - n) ++ c.rest := by
    rw [Conn.pending, List.drop_append_of_le_length (by simpa using h)]
    congr 1
    apply List.ext_getElem
    · simp
    · intro i _ _
      simp [slice, Nat.add_assoc]
  rw [hd]
  by_cases h0 : c.rl - n = 0
  · simp [Conn.pending, Conn.bump, h0, slice]
  · simp [Conn.pending, Conn.bump, h0]

theorem Tx.settck_congr (t : Tx) (drv : Behaviour) {m m' : Mem}
    (h : slice m 7 4 = slice m' 7 4) : t.settck drv m = t.settck drv m' := by
  unfold Tx.settck
  rw [h]

theorem shiftLoop_congr {σ : Type*} {send send' : σ → ℕ → ℕ → Option Err × σ} {v : ℕ}
    (J : ℕ → ℕ → Prop) (hJ : ∀ off left, J off left → 0 < left →
      J (off + v) (left - bitsSent v left))
    (hsend : ∀ s off left, J off left → 0 < left →
      send s (bitsSent v left) off = send' s (bitsSent v left) off)
    (rounds off left : ℕ) (s : σ) (h : J off left) :
    shiftLoop send v rounds off left s = shiftLoop send' v rounds off left s := by
  induction rounds generalizing off left s with
  | zero => rfl
  | succ rounds ih =>
    rw [shiftLoop, shiftLoop]
    by_cases h0 : left = 0
    · rw [if_pos h0, if_pos h0]
    rw [if_neg h0, if_neg h0, hsend s off left h (Nat.pos_of_ne_zero h0)]
    cases send' s (bitsSent v left) off with
    | mk e s1 =>
      cases e with
      | some e => rfl
      | none => exact ih _ _ _ (hJ off left h (Nat.pos_of_ne_zero h0))

theorem Tx.shift_congr (t : Tx) (drv : Behaviour) (sup : ℕ) {bits : ℕ} (hb : bits < 2 ^ 32)
    {m m' : Mem} (h : ∀ i, i < 2 * vecBytes bits → m i = m' i) :
    t.shift drv sup bits m = t.shift drv sup bits m' := by
  have hlt := vecBytes_lt bits
  set v := vecLen (vecBytes bits) sup with hv
  have hvle : v ≤ vecBytes bits := by
    rw [hv, vecLen]
    split_ifs <;> omega
  have hu : u32 (8 * v) = 8 * v := u32_of_lt (by omega)
  have hsent : ∀ left, bitsSent v left = min left (8 * v) := by
    intro left
    rw [bitsSent, hu]
    split_ifs <;> omega
  -- unless chunks are empty, a call starts where the last one ended
  let J := fun off left => 0 < v → left = 0 ∨ 8 * off + left = bits
  have hJ : ∀ off left, J off left → 0 < left → J (off + v) (left - bitsSent v left) := by
    intro off left hj h0 hpos
    have := hj hpos
    rw [hsent]
    omega
  have hreach : ∀ off left, J off left → 0 < left → 0 < bytesCeil (bitsSent v left) →
      off + bytesCeil (bitsSent v left) ≤ vecBytes bits := by
    intro off left hj h0 hc
    rw [hsent] at hc ⊢
    have hpos : 0 < v := by
      by_contra hcon
      rw [show v = 0 by omega] at hc
      simp [bytesCeil] at hc
    have hle : bits ≤ 0xFFFFFFF8 := by
      by_contra hcon
      have : vecBytes bits = 0 := by
        unfold vecBytes u32
        omega
      omega
    have := hj hpos
    rw [vecBytes_eq hle]
    unfold bytesCeil
    omega
  unfold Tx.shift XvcConn.shift
  rw [← hv, shiftLoop_congr J hJ _ (bits + 1) 0 bits t (fun _ => Or.inr (by omega))]
  intro s off left hj h0
  have hr := hreach off left hj h0
  have htms : slice m off (bytesCeil (bitsSent v left)) =
      slice m' off (bytesCeil (bitsSent v left)) := slice_congr fun i _ hi => h i (by omega)
  have htdi : slice m (vecBytes bits + off) (bytesCeil (bitsSent v left)) =
      slice m' (vecBytes bits + off) (bytesCeil (bitsSent v left)) :=
    slice_congr fun i _ hi => h i (by omega)
  unfold Tx.sendVectors
  rw [htms, htdi]

/-- A handler works on the transmit side alone. -/
theorem Conn.lift_sim (c : Conn) (r : Progress × Tx) {P : Conn → Prop} (hb : c.Bounded B)
    (hP : ∀ t, P { c with toTx := t }) :
    Sim B P (c.lift r) (Plain.lift (c.toTx, c.pending) r) :=
  ⟨rfl, rfl, hb, fun _ => ⟨rfl, hP r.2⟩⟩

/-- All that was filled has been consumed, or the spill-over area is still empty. -/
def Conn.Ready (L : ℕ) (c : Conn) : Prop := c.rp + c.rl ≤ L ∧ (c.rl = 0 → c.rp = 0)

theorem Conn.bump_sim (c : Conn) {n L : ℕ} (hb : c.Bounded B) (hn : n ≤ c.rl)
    (hL : n < c.rl → c.rp + c.rl ≤ L) :
    Sim B (Conn.Ready L) (.returned, c.bump n) (.returned, Plain.drop n (c.toTx, c.pending)) := by
  obtain ⟨h1, h2⟩ := hb
  refine ⟨rfl, rfl, ⟨h1, ?_⟩, fun _ => ⟨c.bump_pending hn, ?_, ?_⟩⟩
  · dsimp only [Conn.bump]
    split_ifs <;> omega
  · dsimp only [Conn.bump]
    split_ifs <;> omega
  · intro h
    dsimp only [Conn.bump] at h ⊢
    rw [if_pos h]

end Sim

section Message

variable (cfg : Config) (drv : Behaviour) (io : Io) (sup : ℕ) {c : Conn}

theorem announced_lt (m : Mem) : announced m < 2 ^ 32 := BitVec.isLt _

/-- The bound on `rxb_` in one message: a header reaches at most eleven octets beyond the
first chunk, and a payload starts at the front or within the first chunk. -/
theorem Conn.message_sim (hb : c.Bounded (2 * cfg.chunk)) (hr : c.Ready cfg.chunk) :
    Sim (2 * cfg.chunk) (Conn.Ready cfg.chunk) (c.message cfg drv io sup)
      (Plain.message cfg drv sup (c.toTx, c.pending)) := by
  have hch := cfg.chunk_eq
  obtain ⟨hL, -⟩ := hr
  apply (c.fill_sim io hb (by omega)).andThen
  rintro c2 hb2 ⟨hrp2, hrl2⟩
  rw [c2.slice_at (by omega : 0 + 2 ≤ c2.rl)]
  dsimp only
  split_ifs with hge hse hsh
  · apply (c2.fill_sim io hb2 (by omega)).andThen
    rintro c3 hb3 ⟨hrp3, hrl3⟩
    apply (c3.lift_sim _ (P := fun c => c.rp = c3.rp ∧ c.rl = c3.rl) hb3
      fun t => ⟨rfl, rfl⟩).andThen
    rintro c4 hb4 ⟨hrp4, hrl4⟩
    exact c4.bump_sim hb4 (by omega) (by omega)
  · apply (c2.fill_sim io hb2 (by omega)).andThen
    rintro c3 hb3 ⟨hrp3, hrl3⟩
    dsimp only
    rw [Tx.settck_congr c3.toTx drv (c3.slice_at (by omega : 7 + 4 ≤ c3.rl))]
    apply (c3.lift_sim _ (P := fun c => c.rp = c3.rp ∧ c.rl = c3.rl) hb3
      fun t => ⟨rfl, rfl⟩).andThen
    rintro c4 hb4 ⟨hrp4, hrl4⟩
    exact c4.bump_sim hb4 (by omega) (by omega)
  · apply (c2.fill_sim io hb2 (by omega)).andThen
    rintro c3 hb3 ⟨hrp3, hrl3⟩
    -- the length is read from the buffer, which holds what comes next in the stream
    have hbits : announced c3.at = announced (memOf c3.pending) := by
      rw [announced, c3.slice_at (by omega : 6 + 4 ≤ c3.rl), ← announced]
    have hlt := announced_lt (memOf c3.pending)
    dsimp only
    rw [hbits]
    set bits := announced (memOf c3.pending)
    split_ifs with hbig
    · exact ⟨rfl, rfl, hb3, fun h => by cases h⟩
    -- the header is consumed before its payload is filled
    have hbump := c3.bump_sim (L := cfg.chunk) hb3 (by omega : 10 ≤ c3.rl) (by omega)
    obtain ⟨hpend, hready⟩ := hbump.goesOn rfl
    dsimp only at hpend hready
    have hstep := (c3.bump 10).fill_sim io (n := 2 * vecBytes bits) hbump.bounded
      (by have := hready.1; omega)
    rw [hpend] at hstep
    apply hstep.andThen
    rintro c4 hb4 ⟨hrp4, hrl4⟩
    have hcongr : c4.toTx.shift drv sup bits c4.at =
        c4.toTx.shift drv sup bits (memOf c4.pending) :=
      Tx.shift_congr c4.toTx drv sup hlt fun i hi => c4.at_eq (by omega)
    dsimp only
    rw [hcongr]
    apply (c4.lift_sim _ (P := fun c => c.rp = c4.rp ∧ c.rl = c4.rl) hb4
      fun t => ⟨rfl, rfl⟩).andThen
    rintro c5 hb5 ⟨hrp5, hrl5⟩
    exact c5.bump_sim hb5 (by omega) (by have := hready.1; omega)
  · exact ⟨rfl, rfl, hb2, fun h => by cases h⟩

theorem Conn.flushLoop_eq (c : Conn) (hio : io.Sends) (tl p : ℕ) :
    ∃ n, c.flushLoop io tl p =
      (.returned, { c with sent := c.sent ++ slice c.txb p tl, tl := 0, nWrites := n }) := by
  induction tl using Nat.strong_induction_on generalizing c p with
  | _ tl ih =>
    rw [Conn.flushLoop]
    by_cases h0 : tl = 0
    · refine ⟨c.nWrites, ?_⟩
      simp [h0, slice]
    · obtain ⟨m, hm⟩ := hio c.nWrites
      simp only [if_neg h0, hm]
      set put := min (m + 1) tl
      obtain ⟨n, hn⟩ := ih (tl - put) (by omega) { c with
        sent := c.sent ++ slice c.txb p put
        nWrites := c.nWrites + 1 } (p + put)
      refine ⟨n, hn.trans ?_⟩
      have hs : slice c.txb p tl = slice c.txb p put ++ slice c.txb (p + put) (tl - put) := by
        have : tl = put + (tl - put) := by omega
        rw [slice, this, List.range_add, List.map_append, List.map_map]
        simp [slice, Nat.add_assoc]
      rw [hs, List.append_assoc]

theorem Conn.readChunk_sim (hb : c.Bounded (2 * cfg.chunk)) (hr : c.Ready cfg.chunk) :
    Sim (2 * cfg.chunk) (Conn.Ready cfg.chunk) (c.readChunk cfg io)
      (Plain.need 1 (c.toTx, c.pending)) := by
  have hch := cfg.chunk_eq
  have hlen := c.pending_length
  obtain ⟨hpeak, -⟩ := hb
  obtain ⟨hL, h0⟩ := hr
  unfold Conn.readChunk Plain.need
  by_cases hrl : c.rl = 0
  · have hrp := h0 hrl
    have hpk : (c.read io c.rp cfg.chunk).2.peak ≤ 2 * cfg.chunk := by
      change max c.peak (c.rp + cfg.chunk) ≤ _
      omega
    rw [if_pos hrl]
    by_cases hne : c.rest = []
    · have hz : (c.read io c.rp cfg.chunk).1 = 0 := by simp [Conn.read, hne]
      rw [if_pos hz, if_pos (by dsimp only; rw [hlen, hrl, hne]; decide)]
      refine ⟨rfl, rfl, ⟨hpk, ?_⟩, fun h => by cases h⟩
      change c.rp + c.rl ≤ _
      omega
    · obtain ⟨hpos, hle, -, hpend⟩ := c.read_spec io (k := cfg.chunk) (by omega) hne 0
      rw [Nat.add_zero] at hpos hle hpend
      have hlen1 : 0 < c.rest.length := List.length_pos_iff.mpr hne
      rw [if_neg (by omega), if_neg (by dsimp only; omega)]
      refine ⟨rfl, rfl, ⟨hpk, ?_⟩, fun _ => ⟨?_, ?_, ?_⟩⟩
      · change c.rp + (c.read io c.rp cfg.chunk).1 ≤ _
        omega
      · rw [Nat.zero_add] at hpend
        rw [Conn.pending, Conn.pending, hrl]
        exact hpend
      · change c.rp + (c.read io c.rp cfg.chunk).1 ≤ _
        omega
      · intro _
        exact hrp
  · rw [if_neg hrl, if_neg (by dsimp only; omega)]
    exact ⟨rfl, rfl, ⟨hpeak, by dsimp only; omega⟩, fun _ => ⟨rfl, hL, h0⟩⟩

theorem Conn.turn_sim (hio : io.Sends) (hb : c.Bounded (2 * cfg.chunk))
    (hr : c.Ready cfg.chunk) :
    Sim (2 * cfg.chunk) (Conn.Ready cfg.chunk) (c.turn cfg drv io sup)
      (Plain.turn cfg drv sup (c.toTx, c.pending)) := by
  apply (c.readChunk_sim cfg io hb hr).andThen
  intro c1 hb1 hr1
  apply (c1.message_sim cfg drv io sup hb1 hr1).andThen
  intro c2 hb2 hr2
  obtain ⟨n, hn⟩ := c2.flushLoop_eq io hio c2.tl 0
  rw [Conn.flush, hn]
  exact ⟨rfl, rfl, hb2, fun _ => ⟨rfl, hr2⟩⟩

theorem Conn.turns_sim (hio : io.Sends) (n : ℕ) (hb : c.Bounded (2 * cfg.chunk))
    (hr : c.Ready cfg.chunk) :
    Sim (2 * cfg.chunk) (Conn.Ready cfg.chunk) (Conn.turns cfg drv io sup n c)
      (Plain.turns cfg drv sup n (c.toTx, c.pending)) := by
  induction n generalizing c with
  | zero => exact ⟨rfl, rfl, hb, fun h => by cases h⟩
  | succ n ih => exact (c.turn_sim cfg drv io sup hio hb hr).andThen fun c' hb' hr' => ih hb' hr'

end Message

/-- The bit counts that the shift messages of a stream announce, read off the plain
stream; every message takes octets, so its length bounds their number. -/
def shiftSizes : ℕ → List Byte → List ℕ
  | 0, _ => []
  | n + 1, s =>
    if slice (memOf s) 0 2 = ascii "ge" then shiftSizes n (s.drop 8)
    else if slice (memOf s) 0 2 = ascii "se" then shiftSizes n (s.drop 11)
    else if slice (memOf s) 0 2 = ascii "sh" then
      announced (memOf s) ::
        shiftSizes n (s.drop (10 + 2 * ((announced (memOf s) + 7) / 8)))
    else []

theorem andThen_ne_killed {σ : Type*} {r : Progress × σ} {k : σ → Progress × σ}
    (h : r.1 ≠ .killed) (hk : ∀ s, (k s).1 ≠ .killed) : (andThen r k).1 ≠ .killed := by
  obtain ⟨p, s⟩ := r
  cases p with
  | returned => exact hk s
  | killed => exact absurd rfl h
  | _ => simp [andThen]

theorem shiftLoop_ne_killed {σ : Type*} (send : σ → ℕ → ℕ → Option Err × σ)
    (v rounds off left : ℕ) (s : σ) : (shiftLoop send v rounds off left s).1 ≠ .killed := by
  induction rounds generalizing off left s with
  | zero => simp [shiftLoop]
  | succ rounds ih =>
    rw [shiftLoop]
    split_ifs with h0
    · simp
    cases send s (bitsSent v left) off with
    | mk e s1 =>
      cases e with
      | some e => simp
      | none => exact ih _ _ _

theorem shiftLoop_ne_running {σ : Type*} (send : σ → ℕ → ℕ → Option Err × σ) {v : ℕ}
    (hv : 0 < v) (hlt : v < 2 ^ 29) (rounds off left : ℕ) (s : σ) (h : left < rounds) :
    (shiftLoop send v rounds off left s).1 ≠ .running := by
  induction rounds generalizing off left s with
  | zero => omega
  | succ rounds ih =>
    rw [shiftLoop]
    split_ifs with h0
    · simp
    have hpos := bitsSent_pos hv hlt (Nat.pos_of_ne_zero h0)
    have hle := (bitsSent_le v left).2
    cases send s (bitsSent v left) off with
    | mk e s1 =>
      cases e with
      | some e => simp
      | none => exact ih _ _ _ (by omega)

section Ends

variable (cfg : Config) (drv : Behaviour) {sup : ℕ}

theorem Tx.shift_ne_running (t : Tx) {bits : ℕ} (m : Mem) (h : bits ≤ 0xFFFFFFF8)
    (hsup : 0 < vecBytes bits → 0 < sup) : (t.shift drv sup bits m).1 ≠ .running := by
  have hlt := vecBytes_lt bits
  have hv := vecBytes_eq h
  unfold bytesCeil at hv
  have hloop : (XvcConn.shift (Tx.sendVectors drv m (vecBytes bits)) sup (bits + 1) bits t).1 ≠
      .running := by
    rcases Nat.eq_zero_or_pos bits with h0 | hpos
    · simp [XvcConn.shift, shiftLoop, h0]
    · apply shiftLoop_ne_running
      · unfold vecLen
        split_ifs <;> omega
      · unfold vecLen
        split_ifs <;> omega
      · omega
  unfold Tx.shift
  cases hs : XvcConn.shift (Tx.sendVectors drv m (vecBytes bits)) sup (bits + 1) bits t with
  | mk p t' =>
    rw [hs] at hloop
    cases p <;> simp_all

/-- A turn of the plain reader ends; when it goes on, it has used up at least one octet,
and the rest announces no more than the whole. -/
structure Advances (n : ℕ) (x : Plain) (r : Progress × Plain) : Prop where
  ends : r.1 ≠ .running
  shorter : r.1 = .returned → r.2.2.length < x.2.length
  sizes : r.1 = .returned → ∀ b ∈ shiftSizes n r.2.2, b ∈ shiftSizes (n + 1) x.2

theorem Advances.threw {n : ℕ} {x y : Plain} {e : Err} : Advances n x (.threw e, y) := by
  constructor
  all_goals simp

theorem Advances.need {n k : ℕ} {x : Plain} {f : Plain → Progress × Plain}
    (h : k ≤ x.2.length → Advances n x (f x)) : Advances n x (andThen (Plain.need k x) f) := by
  unfold Plain.need
  split_ifs with hk
  · exact Advances.threw
  · exact h (by omega)

theorem Advances.handler {n k : ℕ} {x y : Plain} {r : Progress × Tx} (hr : r.1 ≠ .running)
    (hk : (y.2.drop k).length < x.2.length)
    (hs : ∀ b ∈ shiftSizes n (y.2.drop k), b ∈ shiftSizes (n + 1) x.2) :
    Advances n x (andThen (y.lift r) fun x => (.returned, x.drop k)) := by
  obtain ⟨p, t⟩ := r
  cases p with
  | returned => exact ⟨by simp [andThen, Plain.lift], fun _ => hk, fun _ => hs⟩
  | threw e => exact Advances.threw
  | killed => exact ⟨by simp [andThen, Plain.lift], by simp [andThen, Plain.lift],
      by simp [andThen, Plain.lift]⟩
  | running => exact absurd rfl hr

theorem Tx.getinfo_ends (t : Tx) : (t.getinfo drv cfg.maxVecLen).1 ≠ .running ∧
    (t.getinfo drv cfg.maxVecLen).1 ≠ .killed := by
  unfold Tx.getinfo Tx.call
  cases drv (t.calls ++ [.query]) <;> simp

theorem Tx.settck_ends (t : Tx) (m : Mem) : (t.settck drv m).1 ≠ .running ∧
    (t.settck drv m).1 ≠ .killed := by
  unfold Tx.settck Tx.call
  cases drv (t.calls ++ [.setPeriodNs (packLE 32 (slice m 7 4))]) <;> simp

theorem Tx.shift_ne_killed (t : Tx) (bits : ℕ) (m : Mem) :
    (t.shift drv sup bits m).1 ≠ .killed := by
  have hloop : (XvcConn.shift (Tx.sendVectors drv m (vecBytes bits)) sup (bits + 1) bits t).1 ≠
      .killed := shiftLoop_ne_killed _ _ _ _ _ _
  unfold Tx.shift
  cases hs : XvcConn.shift (Tx.sendVectors drv m (vecBytes bits)) sup (bits + 1) bits t with
  | mk p t' =>
    rw [hs] at hloop
    cases p <;> simp_all

/-- Only `write()` raises the signal. -/
theorem Plain.message_ne_killed (x : Plain) : (Plain.message cfg drv sup x).1 ≠ .killed := by
  have hneed : ∀ n (x : Plain), (Plain.need n x).1 ≠ .killed := by
    intro n x
    unfold Plain.need
    split_ifs <;> simp
  unfold Plain.message
  apply andThen_ne_killed (hneed _ _)
  intro x
  split_ifs
  · refine andThen_ne_killed (hneed _ _) fun x => andThen_ne_killed ?_ fun _ => by simp
    exact (Tx.getinfo_ends cfg drv x.1).2
  · refine andThen_ne_killed (hneed _ _) fun x => andThen_ne_killed ?_ fun _ => by simp
    exact (Tx.settck_ends drv x.1 _).2
  · refine andThen_ne_killed (hneed _ _) fun x => ?_
    dsimp only
    split_ifs
    · simp
    refine andThen_ne_killed (hneed _ _) fun x => andThen_ne_killed ?_ fun _ => by simp
    exact Tx.shift_ne_killed drv x.1 _ _
  · simp

theorem Plain.message_advances (n : ℕ) (x : Plain) (hsup : 0 < cfg.maxVecLen → 0 < sup)
    (h : ∀ b ∈ shiftSizes (n + 1) x.2, b ≤ 0xFFFFFFF8) :
    Advances n x (Plain.message cfg drv sup x) := by
  unfold Plain.message
  apply Advances.need
  intro h2
  split_ifs with hge hse hsh
  · refine Advances.need fun h8 => Advances.handler (Tx.getinfo_ends cfg drv _).1 ?_ ?_
    · simp only [List.length_drop]
      omega
    · intro b hb
      rwa [shiftSizes, if_pos hge]
  · refine Advances.need fun h11 => Advances.handler (Tx.settck_ends drv _ _).1 ?_ ?_
    · simp only [List.length_drop]
      omega
    · intro b hb
      rwa [shiftSizes, if_neg hge, if_pos hse]
  · apply Advances.need
    intro h10
    have hle : announced (memOf x.2) ≤ 0xFFFFFFF8 :=
      h _ (by rw [shiftSizes, if_neg hge, if_neg hse, if_pos hsh]; exact List.mem_cons_self)
    have hv := vecBytes_eq hle
    dsimp only
    split_ifs with hbig
    · exact Advances.threw
    unfold Plain.need
    split_ifs with hlen
    · exact Advances.threw
    refine Advances.handler (Tx.shift_ne_running drv _ _ hle (by omega)) ?_ ?_
    · simp only [Plain.drop, List.length_drop]
      omega
    · intro b hb
      rw [shiftSizes, if_neg hge, if_neg hse, if_pos hsh]
      rw [Plain.drop, List.drop_drop, hv, bytesCeil] at hb
      exact List.mem_cons_of_mem _ hb
  · exact Advances.threw

theorem Plain.turns_end (hsup : 0 < cfg.maxVecLen → 0 < sup) (n : ℕ) (x : Plain)
    (hlen : x.2.length ≤ n) (h : ∀ b ∈ shiftSizes n x.2, b ≤ 0xFFFFFFF8) :
    ∃ e, (Plain.turns cfg drv sup (n + 1) x).1 = .threw e := by
  induction n generalizing x with
  | zero =>
    refine ⟨readFailed, ?_⟩
    simp [Plain.turns, Plain.turn, Plain.need, andThen, Nat.le_zero.mp hlen]
  | succ n ih =>
    rw [Plain.turns, Plain.turn, Plain.need]
    split_ifs with h0
    · exact ⟨readFailed, rfl⟩
    have hadv := Plain.message_advances cfg drv n x hsup h
    have hsig : (Plain.message cfg drv sup x).1 ≠ .killed := Plain.message_ne_killed cfg drv x
    cases hm : Plain.message cfg drv sup x with
    | mk p y =>
      rw [hm] at hadv hsig
      cases p with
      | running => exact absurd rfl hadv.ends
      | killed => exact absurd rfl hsig
      | threw e => exact ⟨e, by simp [andThen, hm]⟩
      | returned =>
        have hshort := hadv.shorter rfl
        simp only at hshort
        simp only [andThen, hm]
        exact ih (y.1.flushed, y.2) (by simp only; omega) fun b hb => h b (hadv.sizes rfl b hb)

end Ends

/-- The plain reader on a whole stream. -/
def Plain.run (cfg : Config) (drv : Behaviour) (stream : List Byte) (n : ℕ) : Progress × Plain :=
  match Tx.start.allocBufs cfg drv with
  | (.error e, t) => (.threw e, (t, stream))
  | (.ok sup, t) => Plain.turns cfg drv sup n (t, stream)

theorem run_sim (cfg : Config) (drv : Behaviour) {io : Io} (hio : io.Sends) (stream : List Byte)
    (n : ℕ) : Sim (2 * cfg.chunk) (Conn.Ready cfg.chunk) (run cfg drv io stream n)
      (Plain.run cfg drv stream n) := by
  have hstart : ∀ t, (Conn.start t stream).pending = stream := fun t => by
    simp [Conn.pending, Conn.start, slice]
  have hb : ∀ t, (Conn.start t stream).Bounded (2 * cfg.chunk) := fun t => by
    simp [Conn.Bounded, Conn.start]
  unfold run Plain.run
  cases h : Tx.start.allocBufs cfg drv with
  | mk r t =>
    cases r with
    | error e => exact ⟨rfl, rfl, hb t, fun h => by cases h⟩
    | ok sup =>
      have hs := (Conn.start t stream).turns_sim cfg drv io sup hio n (hb t)
        ⟨by simp [Conn.start], fun _ => rfl⟩
      rw [hstart t] at hs
      exact hs

theorem Plain.run_ends (cfg : Config) (drv : Behaviour) (stream : List Byte)
    (h : ∀ b ∈ shiftSizes stream.length stream, b ≤ 0xFFFFFFF8) :
    ∃ e, (Plain.run cfg drv stream (stream.length + 1)).1 = .threw e := by
  unfold Plain.run
  cases ha : Tx.start.allocBufs cfg drv with
  | mk r t =>
    cases r with
    | error e => exact ⟨e, rfl⟩
    | ok sup =>
      refine Plain.turns_end cfg drv ?_ stream.length (t, stream) le_rfl h
      intro hpos
      unfold Tx.allocBufs at ha
      split at ha
      · simp at ha
      · split at ha
        · simp at ha
        · simp only [Prod.mk.injEq, Except.ok.injEq] at ha
          rw [← ha.1]
          exact supVecLen_pos hpos

/-- TCP segmentation does not matter: after every number of messages two runs on the same
stream stand at the same point, with the same calls of the driver and the same octets
sent, and throw the same exception at the same message, which they do; and no
`read()` is ever given room beyond the `2 * chunk_` octets of `rxb_`. -/
theorem run_independent_of_segmentation (cfg : Config) (drv : Behaviour) (stream : List Byte)
    (h : ∀ b ∈ shiftSizes stream.length stream, b ≤ 0xFFFFFFF8) (io io' : Io) (hio : io.Sends)
    (hio' : io'.Sends) :
    (∀ n, (run cfg drv io stream n).1 = (run cfg drv io' stream n).1 ∧
      (run cfg drv io stream n).2.calls = (run cfg drv io' stream n).2.calls ∧
      (run cfg drv io stream n).2.sent = (run cfg drv io' stream n).2.sent ∧
      (run cfg drv io stream n).2.served = (run cfg drv io' stream n).2.served) ∧
    (∃ n e, (run cfg drv io stream n).1 = .threw e) ∧
    ∀ n, (run cfg drv io stream n).2.peak ≤ 2 * cfg.chunk ∧
      (run cfg drv io stream n).2.rp + (run cfg drv io stream n).2.rl ≤ 2 * cfg.chunk := by
  refine ⟨fun n => ?_, ?_, fun n => (run_sim cfg drv hio stream n).bounded⟩
  · have hs := run_sim cfg drv hio stream n
    have hs' := run_sim cfg drv hio' stream n
    have htx := hs.tx.trans hs'.tx.symm
    exact ⟨hs.progress.trans hs'.progress.symm, congrArg Tx.calls htx, congrArg Tx.sent htx,
      congrArg Tx.served htx⟩
  · obtain ⟨e, he⟩ := Plain.run_ends cfg drv stream h
    exact ⟨_, e, (run_sim cfg drv hio stream _).progress.trans he⟩

/-- A `getinfo:` cut inside its header and followed by a shift of ten bits. -/
theorem getinfo_shift_segmented :
    let stream := ascii "getinfo:shift:" ++ [10, 0, 0, 0, 0x5a, 0x01, 0xc3, 0x02]
    let cfg : Config := ⟨32768, by decide⟩
    let drv : Behaviour := fun _ => .ok (64, [0xff, 0x03])
    let io : Io := ⟨fun _ => 0, fun _ => .takes 2⟩
    let io' : Io := ⟨fun _ => 1000, fun _ => .takes 0⟩
    (∀ n, (run cfg drv io stream n).1 = (run cfg drv io' stream n).1 ∧
      (run cfg drv io stream n).2.calls = (run cfg drv io' stream n).2.calls ∧
      (run cfg drv io stream n).2.sent = (run cfg drv io' stream n).2.sent ∧
      (run cfg drv io stream n).2.served = (run cfg drv io' stream n).2.served) ∧
    (∃ n e, (run cfg drv io stream n).1 = .threw e) ∧
    ∀ n, (run cfg drv io stream n).2.peak ≤ 2 * cfg.chunk ∧
      (run cfg drv io stream n).2.rp + (run cfg drv io stream n).2.rl ≤ 2 * cfg.chunk :=
  run_independent_of_segmentation _ _ _ (by decide) _ _ (fun _ => ⟨_, rfl⟩) fun _ => ⟨_, rfl⟩

end XvcSupport.XvcConn
