import XvcSupport.Server

namespace XvcSupport.XvcConn

open JtagDriver

variable {cfg : Config} {drv : Behaviour} {io : Io} {sup : ℕ}

/-- The number of chunks of `sup` octets that hold `bytes` octets. -/
def chunks (sup bytes : ℕ) : ℕ := (bytes + sup - 1) / sup

theorem chunks_sub {v left : ℕ} (hv : 0 < v) (hl : 0 < left) :
    chunks v left = 1 + chunks v (left - min left v) := by
  unfold chunks
  rcases le_total left v with hle | hle
  · rw [min_eq_left hle, Nat.sub_self, Nat.zero_add, Nat.div_eq_of_lt (by omega : v - 1 < v)]
    rw [show left + v - 1 = left - 1 + v by omega, Nat.add_div_right _ hv,
      Nat.div_eq_of_lt (by omega : left - 1 < v)]
  · rw [min_eq_right hle, show left + v - 1 = left - v + v - 1 + v by omega,
      Nat.add_div_right _ hv]
    omega

theorem chunks_bits {sup bits : ℕ} (hsup : 0 < sup) :
    chunks (8 * sup) bits = chunks sup (bytesCeil bits) := by
  unfold chunks bytesCeil
  rw [← Nat.div_div_eq_div_mul]
  congr 1
  omega

theorem Behaviour.Calm.loop (h : drv.Calm) (m : Mem) (bytes : ℕ) {v : ℕ} (hv : 0 < v)
    (hlt : v < 2 ^ 29) (rounds off left : ℕ) (t : Tx) (hr : left < rounds) :
    ∃ t' calls, shiftLoop (Tx.sendVectors drv m bytes) v rounds off left t = (.returned, t') ∧
      t'.calls = t.calls ++ calls ∧ calls.length = chunks (8 * v) left ∧
      ∀ call ∈ calls, ∃ bits tms tdi, call = .sendVectors bits tms tdi ∧ 1 ≤ bits := by
  induction rounds generalizing off left t with
  | zero => omega
  | succ rounds ih =>
    rw [shiftLoop]
    split_ifs with h0
    · refine ⟨t, [], rfl, by simp, ?_, by simp⟩
      rw [h0, chunks, Nat.zero_add, Nat.div_eq_of_lt (by omega)]
      rfl
    have hpos : 0 < left := Nat.pos_of_ne_zero h0
    have hbits := bitsSent_pos hv hlt hpos
    have hmin : bitsSent v left = min left (8 * v) := by
      rw [bitsSent, u32_of_lt (by omega)]
      split_ifs <;> omega
    obtain ⟨call, hcall⟩ : ∃ call, call = DrvCall.sendVectors (bitsSent v left)
      (slice m off (bytesCeil (bitsSent v left)))
      (slice m (bytes + off) (bytesCeil (bitsSent v left))) := ⟨_, rfl⟩
    obtain ⟨r, hr'⟩ := h (t.calls ++ [call])
    obtain ⟨t', calls, hloop, hcalls, hlen, hall⟩ := ih (off + v) (left - bitsSent v left)
      (Tx.sendVectors drv m bytes t (bitsSent v left) off).2 (by omega)
    have hsend : (Tx.sendVectors drv m bytes t (bitsSent v left) off).1 = none ∧
        (Tx.sendVectors drv m bytes t (bitsSent v left) off).2.calls = t.calls ++ [call] := by
      rw [hcall] at hr' ⊢
      simp [Tx.sendVectors, Tx.call, hr']
    cases hs : Tx.sendVectors drv m bytes t (bitsSent v left) off with
    | mk e t1 =>
      rw [hs] at hsend hloop hcalls
      obtain ⟨he, ht1⟩ := hsend
      simp only at he ht1 hcalls
      subst he
      refine ⟨t', call :: calls, hloop, ?_, ?_, ?_⟩
      · rw [hcalls, ht1, List.append_assoc]
        rfl
      · rw [List.length_cons, hlen, chunks_sub (by omega : 0 < 8 * v) hpos, hmin, Nat.add_comm]
      · intro c hc
        rcases List.mem_cons.mp hc with rfl | hc
        · exact ⟨_, _, _, hcall, hbits⟩
        · exact hall c hc

theorem Behaviour.Calm.shift_calls (h : drv.Calm) (t : Tx) (m : Mem) {bits : ℕ}
    (hle : bits ≤ 0xFFFFFFF8) (hsup : 0 < sup) :
    ∃ t' calls, t.shift drv sup bits m = (.returned, t') ∧ t'.calls = t.calls ++ calls ∧
      calls.length = chunks sup (bytesCeil bits) ∧
      ∀ call ∈ calls, ∃ bits tms tdi, call = .sendVectors bits tms tdi ∧ 1 ≤ bits := by
  have hv := vecBytes_eq hle
  have hlt := vecBytes_lt bits
  rcases Nat.eq_zero_or_pos bits with rfl | hpos
  · refine ⟨{ t with tl := vecBytes 0 }, [], rfl, by simp, ?_, by simp⟩
    rw [chunks, bytesCeil, Nat.zero_add, Nat.div_eq_of_lt (by omega)]
    rfl
  have hbytes : 0 < bytesCeil bits := by unfold bytesCeil; omega
  have hvl : 0 < vecLen (vecBytes bits) sup ∧ vecLen (vecBytes bits) sup < 2 ^ 29 := by
    unfold vecLen
    split_ifs <;> omega
  obtain ⟨t', calls, hloop, hcalls, hlen, hall⟩ := h.loop m (vecBytes bits) hvl.1 hvl.2 (bits + 1) 0
    bits t (by omega)
  refine ⟨{ t' with tl := vecBytes bits }, calls, ?_, hcalls, ?_, hall⟩
  · rw [Tx.shift, XvcConn.shift, hloop]
  · rw [hlen, chunks_bits hvl.1, hv, vecLen]
    split_ifs with hbig
    · rfl
    · -- the whole request is one chunk
      rw [chunks_sub hbytes hbytes, chunks_sub hsup hbytes, min_self,
        min_eq_left (by omega : bytesCeil bits ≤ sup), Nat.sub_self]
      simp only [chunks, Nat.zero_add]
      rw [Nat.div_eq_of_lt (by omega), Nat.div_eq_of_lt (by omega)]

/-- The header of a shift of `bits` bits is in the buffer. -/
structure ShiftHeader (c : Conn) (bits : ℕ) : Prop where
  filled : 10 ≤ c.rl
  command : slice c.at 0 2 = ascii "sh"
  length : announced c.at = bits

theorem Conn.fill_filled (c : Conn) {n : ℕ} (h : n ≤ c.rl) : c.fill io n = (.returned, c) := by
  rw [Conn.fill, if_pos h]

variable (io) in
theorem Conn.fill_cases (c : Conn) (n : ℕ) :
    (∃ c', c.fill io n = (.returned, c') ∧ c'.toTx = c.toTx) ∨
      c.rl + c.rest.length < n ∧ (c.fill io n).1 = .threw readFailed := by
  rcases Nat.lt_or_ge c.rl n with hlt | hle
  · obtain ⟨htx, -, -, -, hend⟩ := c.fillLoop_spec io (n - c.rl) c.rl
    rw [Conn.fill, if_neg (by omega)]
    cases hr : c.fillLoop io (n - c.rl) (c.rp + c.rl) with
    | mk p c' =>
      rw [hr] at htx hend
      simp only at htx hend
      split_ifs at hend with hshort
      · subst hend
        exact Or.inr ⟨by omega, rfl⟩
      · obtain ⟨rfl, -⟩ := hend
        exact Or.inl ⟨_, rfl, htx⟩
  · exact Or.inl ⟨c, c.fill_filled hle, rfl⟩

theorem ShiftHeader.message {c : Conn} {bits : ℕ} (h : ShiftHeader c bits) :
    c.message cfg drv io sup =
      if vecBytes bits > cfg.maxVecLen then (.threw tooBig, c)
      else andThen ((c.bump 10).fill io (2 * vecBytes bits)) fun c =>
        andThen (c.lift (c.toTx.shift drv sup bits c.at)) fun c =>
          (.returned, c.bump (2 * vecBytes bits)) := by
  obtain ⟨hfill, hcmd, rfl⟩ := h
  have hge : ascii "sh" ≠ ascii "ge" := by decide
  have hse : ascii "sh" ≠ ascii "se" := by decide
  rw [Conn.message, c.fill_filled (by omega)]
  simp only [andThen, hcmd, if_neg hge, if_neg hse, if_true, c.fill_filled hfill]

/-- The check and the loop for requests of `bits` bits: those whose octets fit into `maxVecLen_`
are accepted, others throw; and the loop of an accepted request whose vectors arrive ends after
one call for each chunk. -/
structure LengthChecked (cfg : Config) (sup bits : ℕ) : Prop where
  accepts : ∀ (drv : Behaviour) (io : Io) (c : Conn), drv.Calm → ShiftHeader c bits →
    bytesCeil bits ≤ cfg.maxVecLen → (c.message cfg drv io sup).1 ≠ .threw tooBig
  rejects : ∀ (drv : Behaviour) (io : Io) (c : Conn), drv.Calm → ShiftHeader c bits →
    cfg.maxVecLen < bytesCeil bits → c.message cfg drv io sup = (.threw tooBig, c)
  loops : ∀ (drv : Behaviour) (io : Io) (c : Conn), drv.Calm → ShiftHeader c bits →
    (c.message cfg drv io sup).1 ≠ .threw tooBig →
    2 * bytesCeil bits ≤ c.rl - 10 + c.rest.length →
    ∃ c' calls, c.message cfg drv io sup = (.returned, c') ∧ c'.calls = c.calls ++ calls ∧
      calls.length = chunks sup (bytesCeil bits) ∧
      ∀ call ∈ calls, ∃ bits tms tdi, call = .sendVectors bits tms tdi ∧ 1 ≤ bits

def Conn.headed (bits : ℕ) : Conn :=
  { Conn.start Tx.start [] with
    rxb := memOf (ascii "shift:" ++ unpackLE 4 (BitVec.ofNat 32 bits))
    rl := 10 }

theorem LengthChecked.le {bits : ℕ} (h : LengthChecked cfg sup bits)
    (hmax : cfg.maxVecLen < 2 ^ 29) (h32 : bits < 2 ^ 32) : bits ≤ 0xFFFFFFF8 := by
  by_contra hcon
  have hhead : ShiftHeader (Conn.headed bits) bits := by
    refine ⟨le_rfl, rfl, ?_⟩
    obtain rfl | rfl | rfl | rfl | rfl | rfl | rfl : bits = 0xFFFFFFF9 ∨ bits = 0xFFFFFFFA ∨
      bits = 0xFFFFFFFB ∨ bits = 0xFFFFFFFC ∨ bits = 0xFFFFFFFD ∨ bits = 0xFFFFFFFE ∨
      bits = 0xFFFFFFFF := by omega
    all_goals decide
  have hz : vecBytes bits = 0 := by
    unfold vecBytes u32
    omega
  have hcalm : Behaviour.Calm fun _ => .ok (0, []) := fun _ => ⟨_, rfl⟩
  have hrej := h.rejects (fun _ => .ok (0, [])) ⟨fun _ => 0, fun _ => .takes 0⟩ _ hcalm hhead
    (by unfold bytesCeil; omega)
  rw [hhead.message, if_neg (by omega), hz, Conn.fill_filled _ (Nat.zero_le _)] at hrej
  have hrun := (hcalm.shift ((Conn.headed bits).bump 10).toTx ((Conn.headed bits).bump 10).at h32
    (fun hpos => absurd hpos (by omega) : 0 < vecBytes bits → 0 < sup)).trans (if_neg hcon)
  simp only [andThen, Conn.lift, hrun] at hrej
  exact absurd (congrArg Prod.fst hrej) (by simp)

/-- The check and the loop are right for all requests but the few whose bit count wraps around
when it is rounded up to octets. -/
theorem length_checked_iff (cfg : Config) (sup bits : ℕ) (hmax : cfg.maxVecLen < 2 ^ 29)
    (hsup : 1 ≤ sup) (h32 : bits < 2 ^ 32) : LengthChecked cfg sup bits ↔ bits ≤ 0xFFFFFFF8 := by
  refine ⟨fun h => h.le hmax h32, fun hle => ?_⟩
  have hv := vecBytes_eq hle
  refine ⟨?_, ?_, ?_⟩
  · intro drv io c hcalm hhead hbytes
    rw [hhead.message, if_neg (by omega)]
    rcases (c.bump 10).fill_cases io (2 * vecBytes bits) with ⟨c', hfill, -⟩ | ⟨-, hthrew⟩
    · have hret := (hcalm.shift c'.toTx c'.at h32 (fun _ => hsup)).trans (if_pos hle)
      simp [hfill, andThen, Conn.lift, hret]
    · cases hfill : (c.bump 10).fill io (2 * vecBytes bits) with
      | mk p c' =>
        rw [hfill] at hthrew
        simp only at hthrew
        subst hthrew
        simp [andThen, readFailed, tooBig]
  · intro drv io c _ hhead hbytes
    rw [hhead.message, if_pos (by omega)]
  · intro drv io c hcalm hhead hacc hrest
    have hbytes : ¬ vecBytes bits > cfg.maxVecLen := by
      intro hbig
      rw [hhead.message, if_pos hbig] at hacc
      exact hacc rfl
    rw [hhead.message, if_neg hbytes]
    rcases (c.bump 10).fill_cases io (2 * vecBytes bits) with ⟨c', hfill, htx⟩ | ⟨hlt, -⟩
    · obtain ⟨t', calls, hshift, hcalls, hlen, hall⟩ := hcalm.shift_calls c'.toTx c'.at hle hsup
      refine ⟨({ c' with toTx := t' } : Conn).bump (2 * vecBytes bits), calls, ?_, ?_, hlen, hall⟩
      · simp only [hfill, andThen, Conn.lift, hshift]
      · rw [htx] at hcalls
        exact hcalls
    · have hrl : (c.bump 10).rl + (c.bump 10).rest.length = c.rl - 10 + c.rest.length := rfl
      omega

theorem length_checked_ten_bits : LengthChecked ⟨32768, by decide⟩ 1 10 :=
  (length_checked_iff _ 1 10 (by decide) le_rfl (by decide)).mpr (by decide)

/-- A request of 0xFFFFFFF9 bits passes for one of no octets. -/
theorem longest_request_accepted : ¬ LengthChecked ⟨32768, by decide⟩ 32768 0xFFFFFFF9 :=
  fun h => absurd (h.le (by decide) (by decide)) (by decide)

end XvcSupport.XvcConn
