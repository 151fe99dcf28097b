import XvcSupport.StaleReplies
import XvcSupport.Refinement
import XvcSupport.WordShifts

namespace XvcSupport

open JtagDriver (bytesCeil)

/-- Bits packed into octets, the first bit least significant; a last, partial octet is filled up
with zeros. -/
def octetsOfBits (bits : List Bool) : List Byte :=
  (List.range (bytesCeil bits.length)).map fun k =>
    BitVec.ofFnLE fun i : Fin 8 => bits.getD (8 * k + i.val) false

@[simp] theorem octetsOfBits_length (bits : List Bool) :
    (octetsOfBits bits).length = bytesCeil bits.length := by
  simp [octetsOfBits]

theorem getLsbD_octetsOfBits (bits : List Bool) {k i : ℕ} (hi : i < 8) :
    ((octetsOfBits bits).getD k 0).getLsbD i = bits.getD (8 * k + i) false := by
  by_cases hk : k < bytesCeil bits.length
  · rw [List.getD_eq_getElem _ _ (by simpa using hk)]
    simp [octetsOfBits, hi]
  · have hge : bits.length ≤ 8 * k + i := by
      unfold bytesCeil at hk
      omega
    rw [List.getD_eq_default _ _ (by simpa using hk), List.getD_eq_default _ _ hge]
    simp

theorem memBit_octetsOfBits (bits : List Bool) (i : ℕ) :
    memBit (memOf (octetsOfBits bits)) i = bits.getD i false := by
  have hi : 8 * (i / 8) + i % 8 = i := by omega
  rw [memBit, memOf, getLsbD_octetsOfBits _ (by omega), hi]

theorem octetsOfBits_append {bits : List Bool} {n : ℕ} (hn : bits.length = 8 * n)
    (bits' : List Bool) :
    octetsOfBits (bits ++ bits') = octetsOfBits bits ++ octetsOfBits bits' := by
  have hceil : bytesCeil (bits ++ bits').length = n + bytesCeil bits'.length := by
    rw [List.length_append, hn]
    unfold bytesCeil
    omega
  have hfull : bytesCeil bits.length = n := by
    rw [hn]
    unfold bytesCeil
    omega
  rw [octetsOfBits, hceil, List.range_add, List.map_append, List.map_map, octetsOfBits,
    octetsOfBits, hfull]
  congr 1
  · apply List.map_congr_left
    intro k hk
    have hlt := List.mem_range.mp hk
    congr 1
    funext i
    rw [List.getD_append _ _ _ _ (by omega)]
  · apply List.map_congr_left
    intro k _
    rw [Function.comp_apply]
    congr 1
    funext i
    rw [List.getD_append_right _ _ _ _ (by omega), hn]
    congr 1
    omega

theorem getD_octetsOf {wsz : ℕ} (hw : 0 < wsz) (ws : List (BitVec (8 * wsz))) {k : ℕ}
    (hk : k < ws.length * wsz) :
    (octetsOf wsz ws).getD k 0 = (ws.getD (k / wsz) 0).extractLsb' (8 * (k % wsz)) 8 := by
  induction ws generalizing k with
  | nil => simp at hk
  | cons w ws ih =>
    rw [List.length_cons, Nat.succ_mul] at hk
    rw [octetsOf, List.flatMap_cons, ← octetsOf]
    by_cases hlt : k < wsz
    · rw [List.getD_append _ _ _ _ (by simpa using hlt), Nat.div_eq_of_lt hlt,
        Nat.mod_eq_of_lt hlt, List.getD_eq_getElem _ _ (by simpa using hlt)]
      simp [unpackLE]
    · obtain ⟨k, rfl⟩ := Nat.exists_eq_add_of_le (not_lt.mp hlt)
      rw [List.getD_append_right _ _ _ _ (by simp), unpackLE_length, Nat.add_sub_cancel_left,
        ih (by omega), Nat.add_div_left _ hw, Nat.add_mod_left]
      rfl

end XvcSupport

namespace XvcSupport.AxisToJtag

open JtagDriver (bytesCeil)

theorem octets_tdoWords {wsz n k : ℕ} (f : ℕ → Bool) (hk : k < bytesCeil n) (hw : 0 < wsz) :
    (octetsOf wsz ((List.range (wordCount (8 * wsz) n)).map (tdoWord (8 * wsz) n f))).getD k 0 =
      (octetsOfBits ((List.range n).map f)).getD k 0 := by
  have hkdiv := Nat.div_add_mod k wsz
  have hmod := Nat.mod_lt k hw
  have hcount : k / wsz < wordCount (8 * wsz) n := by
    rw [AxisToJtagCore.Task.lt_wordCount (by omega)]
    have hmul : k / wsz * (8 * wsz) = 8 * (wsz * (k / wsz)) := by ring
    unfold bytesCeil at hk
    omega
  have hlen : k < ((List.range (wordCount (8 * wsz) n)).map (tdoWord (8 * wsz) n f)).length *
      wsz := by
    rw [List.length_map, List.length_range]
    exact (Nat.div_lt_iff_lt_mul hw).mp hcount
  rw [getD_octetsOf hw _ hlen, List.getD_eq_getElem _ _ (by simpa using hcount), List.getElem_map,
    List.getElem_range]
  apply BitVec.eq_of_getLsbD_eq
  intro i hi
  have hin : 8 * (k % wsz) + i < 8 * wsz := by omega
  have hpos : k / wsz * (8 * wsz) + (8 * (k % wsz) + i) = 8 * k + i := by
    have hmul : k / wsz * (8 * wsz) = 8 * (wsz * (k / wsz)) := by ring
    omega
  rw [getLsbD_octetsOfBits _ hi, BitVec.getLsbD_extractLsb', tdoWord, BitVec.getLsbD_ofFnLE,
    dif_pos hin, hpos]
  by_cases hlt : 8 * k + i < n
  · simp [List.getD, hlt, hi]
  · simp [List.getD, hlt]

@[simp] theorem vectorBits_length (tms tdi : Mem) (n : ℕ) : (vectorBits tms tdi n).length = n := by
  simp [vectorBits]

theorem vectorBits_octets (tms tdi : Mem) (off n : ℕ) :
    vectorBits tms tdi (8 * off + n) = vectorBits tms tdi (8 * off) ++
      vectorBits (fun i => tms (off + i)) (fun i => tdi (off + i)) n := by
  rw [vectorBits, List.range_add, List.map_append, List.map_map]
  congr 1
  apply List.map_congr_left
  intro i _
  rw [Function.comp_apply, XvcConn.memBit_shifted, XvcConn.memBit_shifted]

/-- Only the octets that hold bits matter. -/
theorem vectorBits_congr {tms tms' tdi tdi' : Mem} {n : ℕ}
    (htms : ∀ i < bytesCeil n, tms i = tms' i) (htdi : ∀ i < bytesCeil n, tdi i = tdi' i) :
    vectorBits tms tdi n = vectorBits tms' tdi' n := by
  apply List.map_congr_left
  intro i hi
  have hlt := List.mem_range.mp hi
  have hq : i / 8 < bytesCeil n := by
    unfold bytesCeil
    omega
  rw [memBit, memBit, memBit, memBit, htms _ hq, htdi _ hq]

/-- The TDO bits that a vector brings back from a TAP that has seen the edges `hist`. -/
def response (tap : Tap) (hist : List Edge) (bits : List (Bool × Bool)) : List Bool :=
  (List.range bits.length).map (tdoAt tap hist bits)

@[simp] theorem response_length (tap : Tap) (hist : List Edge) (bits : List (Bool × Bool)) :
    (response tap hist bits).length = bits.length := by
  simp [response]

@[simp] theorem response_nil (tap : Tap) (hist : List Edge) : response tap hist [] = [] := rfl

theorem response_append (tap : Tap) (hist : List Edge) (bits bits' : List (Bool × Bool)) :
    response tap hist (bits ++ bits') =
      response tap hist bits ++ response tap (hist ++ edgesOf bits) bits' := by
  rw [response, List.length_append, List.range_add, List.map_append, List.map_map]
  congr 1
  · apply List.map_congr_left
    intro i hi
    have hlt := List.mem_range.mp hi
    rw [tdoAt, tdoAt, List.take_append_of_le_length hlt.le, List.getD_append _ _ _ _ hlt]
  · apply List.map_congr_left
    intro i _
    rw [Function.comp_apply, tdoAt, tdoAt, List.getD_append_right _ _ _ _ (by omega),
      Nat.add_sub_cancel_left, List.take_length_add_append, edgesOf_append, List.append_assoc]

variable {g : Generics}

theorem serve_periods (tap : Tap) (fw : Fw g.W) (f : List (BitVec g.W)) :
    ∃ bits, (serve g tap fw f).2.hist = fw.hist ++ edgesOf bits := by
  have hnone : fw.hist = fw.hist ++ edgesOf [] := (List.append_nil _).symm
  cases f with
  | nil => exact ⟨[], hnone⟩
  | cons data payload =>
    cases hdec : idle g fw.xid fw.memValid data payload.isEmpty with
    | execute => exact ⟨_, serve_execute_hist hdec⟩
    | _ => exact ⟨[], by simpa [serve, hdec] using hnone⟩

/-- Between requests TCK is low: the TAP has seen whole periods only. -/
theorem afterAll_periods (tap : Tap) (fw : Fw g.W) (fs : List (List (BitVec g.W))) :
    ∃ bits, (afterAll tap fw fs).hist = fw.hist ++ edgesOf bits := by
  induction fs generalizing fw with
  | nil => exact ⟨[], (List.append_nil _).symm⟩
  | cons f fs ih =>
    obtain ⟨bits, hbits⟩ := serve_periods tap fw f
    obtain ⟨bits', hbits'⟩ := ih (serve g tap fw f).2
    refine ⟨bits ++ bits', ?_⟩
    rw [edgesOf_append, ← List.append_assoc, ← hbits]
    exact hbits'

end XvcSupport.AxisToJtag
