import XvcSupport.BitLists
import XvcSupport.Driver

namespace XvcSupport

/-- A word of the vector; one that had an undefined value or-ed into it has none. -/
abbrev DumpWord := Option (BitVec 64)

/-- `v_` has a last word at all times, since the constructor and `clear` push one. -/
structure JtagRegType where
  bitpos : ℕ
  front : List DumpWord
  back : DumpWord
deriving DecidableEq

namespace JtagRegType

open BitList
open JtagDriver (u32)

def clear : JtagRegType where
  bitpos := 0
  front := []
  back := some 0

/-- `1<<bitpos_`, an `int` that is converted to 64 bits; a shift by its width or more is
undefined. -/
def mask (bitpos : ℕ) : DumpWord :=
  if bitpos < 32 then some ((1#32 <<< bitpos).signExtend 64) else none

def orWord (v m : DumpWord) : DumpWord := do return (← v) ||| (← m)

def addBit (r : JtagRegType) (b : Bool) : JtagRegType :=
  let back := if b then orWord r.back (mask r.bitpos) else r.back
  if r.bitpos + 1 ≥ 8 * 8 then { bitpos := 0, front := r.front ++ [back], back := some 0 }
  else { r with bitpos := r.bitpos + 1, back := back }

/-- `getNumBits`, an `unsigned`. -/
def getNumBits (r : JtagRegType) : ℕ := u32 (r.front.length * 8 * 8 + r.bitpos)

/-- The words as one number, the least significant word first. -/
def number (r : JtagRegType) : Option ℕ :=
  ((r.front ++ [r.back]).mapM id).map fun ws => Nat.ofDigits (2 ^ 64) (ws.map BitVec.toNat)

def ofBits (bits : List Bool) : JtagRegType := bits.foldl addBit clear

@[simp] theorem ofBits_append (bits : List Bool) (b : Bool) :
    ofBits (bits ++ [b]) = (ofBits bits).addBit b := by
  simp [ofBits]

/-- A word after at most 64 bits. -/
def wordOf (bits : List Bool) : DumpWord :=
  (bits.zipIdx.foldl (fun v (b, i) => if b then orWord v (mask i) else v) (some 0))

theorem wordOf_append (bits : List Bool) (b : Bool) :
    wordOf (bits ++ [b]) =
      if b then orWord (wordOf bits) (mask bits.length) else wordOf bits := by
  simp [wordOf, List.zipIdx_append]

theorem getLsbD_mask {p i : ℕ} (hp : p < 32) (hi : i < 64) :
    ((1#32 <<< p).signExtend 64).getLsbD i = decide (min i 31 = p) := by
  rw [BitVec.getLsbD_signExtend]
  by_cases h : i < 32
  · have hmin : min i 31 = i := by omega
    rw [if_pos h, hmin]
    by_cases hip : i = p
    · simp [hip, hp, hip ▸ hi]
    · simp [hi, hip]
      omega
  · have hmin : min i 31 = 31 := by omega
    rw [if_neg h, hmin]
    by_cases hip : 31 = p
    · simp [hi, ← hip, BitVec.msb_eq_getLsbD_last]
    · simp [hi, hip, BitVec.msb_eq_getLsbD_last]
      omega

theorem wordOf_high {bits : List Bool} {i : ℕ} (hi : 32 ≤ i) (h : bits.getD i false = true) :
    wordOf bits = none := by
  induction bits using List.reverseRecOn with
  | nil => simp at h
  | append_singleton bits b ih =>
    rw [getD_append_singleton] at h
    rw [wordOf_append]
    by_cases hlast : i = bits.length
    · rw [if_pos hlast] at h
      have hmask : mask bits.length = none := if_neg (by omega)
      rw [h, if_pos rfl, hmask]
      cases wordOf bits <;> rfl
    · rw [if_neg hlast] at h
      rw [ih h]
      cases b <;> rfl

theorem wordOf_low {bits : List Bool} (h : ∀ i, 32 ≤ i → bits.getD i false = false) :
    ∃ w, wordOf bits = some w ∧ ∀ i < 64, w.getLsbD i = bits.getD (min i 31) false := by
  induction bits using List.reverseRecOn with
  | nil => exact ⟨0, rfl, by simp⟩
  | append_singleton bits b ih =>
    have hbits : ∀ i, 32 ≤ i → bits.getD i false = false := by
      intro i hi
      have hb := h i hi
      rw [getD_append_singleton] at hb
      by_cases hlast : i = bits.length
      · exact List.getD_eq_default _ _ (by omega)
      · rwa [if_neg hlast] at hb
    obtain ⟨w, hw, hbit⟩ := ih hbits
    rw [wordOf_append, hw]
    cases b with
    | false =>
      refine ⟨w, rfl, ?_⟩
      intro i hi
      rw [hbit i hi, getD_append_singleton]
      split_ifs with hlast
      · exact List.getD_eq_default _ _ (by omega)
      · rfl
    | true =>
      -- `1 << bitpos` is an `int`, and is not defined from bit 32 on
      have hlen : bits.length < 32 := by
        by_contra hge
        have := h bits.length (by omega)
        rw [getD_append_singleton, if_pos rfl] at this
        cases this
      have hmask : mask bits.length = some _ := if_pos hlen
      refine ⟨w ||| _, by rw [if_pos rfl, hmask]; rfl, ?_⟩
      intro i hi
      rw [BitVec.getLsbD_or, getLsbD_mask hlen hi, hbit i hi, getD_append_singleton]
      split_ifs with hlast
      · simp [hlast]
      · simp [hlast]

theorem wordOf_eq_value_iff {bits : List Bool} (hlen : bits.length ≤ 64) :
    (∃ w, wordOf bits = some w ∧ w.toNat = value bits) ↔
      ∀ i, bits.getD i false = true → i ≤ 30 := by
  constructor
  · rintro ⟨w, hw, hvalue⟩ i hi
    by_contra hi30
    have hlow : ∀ i, 32 ≤ i → bits.getD i false = false := by
      intro j hj
      by_contra hset
      rw [wordOf_high hj (by simpa using hset)] at hw
      cases hw
    obtain ⟨w', hw', hbit⟩ := wordOf_low hlow
    obtain rfl : w = w' := Option.some.inj (hw.symm.trans hw')
    have hi31 : i = 31 := by
      by_contra hne
      rw [hlow i (by omega)] at hi
      cases hi
    -- bit 31 sets the bits above it too
    have h63 := (toNat_eq_value_iff w bits hlen).mp hvalue 63 (by omega)
    rw [hbit 63 (by omega), hlow 63 (by omega)] at h63
    rw [hi31] at hi
    rw [show min 63 31 = 31 by rfl, hi] at h63
    cases h63
  · intro h
    have hclear : ∀ i, 31 ≤ i → bits.getD i false = false := by
      intro i hi
      by_contra hset
      have := h i (by simpa using hset)
      omega
    obtain ⟨w, hw, hbit⟩ := wordOf_low fun i hi => hclear i (by omega)
    refine ⟨w, hw, (toNat_eq_value_iff w bits hlen).mpr ?_⟩
    intro i hi
    rw [hbit i hi]
    by_cases h31 : i < 31
    · rw [Nat.min_eq_left (by omega)]
    · rw [hclear i (by omega), hclear _ (by omega)]

theorem ofBits_spec (bits : List Bool) :
    (ofBits bits).bitpos = bits.length % 64 ∧
    (ofBits bits).front =
      ((List.range (bits.length / 64)).map fun j => wordOf (chunk 64 bits j)) ∧
    (ofBits bits).back = wordOf (chunk 64 bits (bits.length / 64)) := by
  induction bits using List.reverseRecOn with
  | nil => exact ⟨rfl, rfl, rfl⟩
  | append_singleton bits b ih =>
    obtain ⟨hpos, hfront, hback⟩ := ih
    have hlen := chunk_last_length (k := 64) (by omega) bits
    have hword : (if b then orWord (ofBits bits).back (mask (ofBits bits).bitpos)
        else (ofBits bits).back) = wordOf (chunk 64 (bits ++ [b]) (bits.length / 64)) := by
      rw [chunk_append_singleton (by omega), wordOf_append, hback, hpos, hlen]
    have hold : ((List.range (bits.length / 64)).map fun j => wordOf (chunk 64 bits j)) =
        (List.range (bits.length / 64)).map fun j => wordOf (chunk 64 (bits ++ [b]) j) := by
      apply List.map_congr_left
      intro j hj
      have := List.mem_range.mp hj
      rw [chunk_append_of_lt (by omega)]
    have hsucc : (bits ++ [b]).length = bits.length + 1 := by simp
    rw [ofBits_append, addBit, hword, hsucc]
    by_cases hfull : (ofBits bits).bitpos + 1 ≥ 8 * 8
    · rw [if_pos hfull]
      have hq : (bits.length + 1) / 64 = bits.length / 64 + 1 := by omega
      refine ⟨by simp only; omega, ?_, ?_⟩
      · simp only [hq, List.range_succ, List.map_append, hfront, hold]
        rfl
      · have hnone : chunk 64 (bits ++ [b]) ((bits.length + 1) / 64) = [] :=
          chunk_of_le (by rw [hsucc, hq]; omega)
        rw [hnone]
        rfl
    · rw [if_neg hfull]
      have hq : (bits.length + 1) / 64 = bits.length / 64 := by omega
      refine ⟨by simp only; omega, ?_, ?_⟩
      · simp only [hq, hfront, hold]
      · rw [hq]

theorem ofBits_words (bits : List Bool) :
    (ofBits bits).front ++ [(ofBits bits).back] =
      (List.range (bits.length / 64 + 1)).map fun j => wordOf (chunk 64 bits j) := by
  obtain ⟨-, hfront, hback⟩ := ofBits_spec bits
  rw [hfront, hback, List.range_succ, List.map_append]
  rfl

theorem getNumBits_ofBits (bits : List Bool) :
    (ofBits bits).getNumBits = u32 bits.length := by
  obtain ⟨hpos, hfront, -⟩ := ofBits_spec bits
  have hdiv := Nat.div_add_mod bits.length 64
  rw [getNumBits, hpos, hfront, List.length_map, List.length_range]
  congr 1
  omega

theorem mapM_id_eq_some {α : Type} {l : List (Option α)} {xs : List α} :
    l.mapM id = some xs ↔ l = xs.map some := by
  induction l generalizing xs with
  | nil => cases xs <;> simp
  | cons x l ih =>
    cases x with
    | none => cases xs <;> simp
    | some x =>
      cases hl : l.mapM id with
      | none =>
        have hne : ∀ ys : List α, l ≠ ys.map some := by
          intro ys hys
          rw [← ih, hl] at hys
          cases hys
        cases xs <;> simp [hl, hne]
      | some ys =>
        obtain rfl := ih.mp hl
        cases xs with
        | nil => simp [hl]
        | cons y zs =>
          have hinj : ys = zs ↔ ys.map some = zs.map some :=
            (List.map_injective_iff.mpr (Option.some_injective α)).eq_iff.symm
          simp [hl, hinj]

theorem number_ofBits_iff (bits : List Bool) :
    (ofBits bits).number = some (value bits) ↔
      ∀ j < bits.length / 64 + 1,
        ∃ w, wordOf (chunk 64 bits j) = some w ∧ w.toNat = value (chunk 64 bits j) := by
  have hvalue := value_eq_ofDigits 64 (bits.length / 64 + 1) bits (by omega)
  unfold number
  rw [ofBits_words]
  constructor
  · intro h j hj
    obtain ⟨ws, hws, hnum⟩ := Option.map_eq_some_iff.mp h
    rw [mapM_id_eq_some] at hws
    have hlen : ws.length = bits.length / 64 + 1 := by
      have := congrArg List.length hws
      simpa using this.symm
    rw [hvalue] at hnum
    -- the words are the digits of the number, and digits are unique
    have hdigits := Nat.ofDigits_inj_of_len_eq (by norm_num) (by simp [hlen]) ?_ ?_ hnum
    · have hw : wordOf (chunk 64 bits j) = some (ws.get ⟨j, by omega⟩) := by
        have := congrArg (fun l => l[j]?) hws
        simpa [hj, hlen] using this
      refine ⟨_, hw, ?_⟩
      have := congrArg (fun l => l[j]?) hdigits
      simpa [hj, hlen] using this
    · intro d hd
      obtain ⟨w, -, rfl⟩ := List.mem_map.mp hd
      exact w.isLt
    · intro d hd
      obtain ⟨i, -, rfl⟩ := List.mem_map.mp hd
      exact (value_lt _).trans_le (Nat.pow_le_pow_right (by omega) (chunk_length_le 64 bits i))
  · intro h
    have hword : ∀ j ∈ List.range (bits.length / 64 + 1),
        wordOf (chunk 64 bits j) = some (BitVec.ofNat 64 (value (chunk 64 bits j))) := by
      intro j hj
      obtain ⟨w, hw, hw'⟩ := h j (List.mem_range.mp hj)
      rw [hw, ← hw', BitVec.ofNat_toNat, BitVec.setWidth_eq]
    rw [List.map_congr_left hword, hvalue]
    have hsome : (List.range (bits.length / 64 + 1)).map
          (fun j => some (BitVec.ofNat 64 (value (chunk 64 bits j)))) =
        ((List.range (bits.length / 64 + 1)).map
          fun j => BitVec.ofNat 64 (value (chunk 64 bits j))).map some := by
      rw [List.map_map]
      rfl
    rw [mapM_id_eq_some.mpr hsome, Option.map_some, List.map_map]
    congr 2
    apply List.map_congr_left
    intro j _
    rw [Function.comp_apply, BitVec.toNat_ofNat, Nat.mod_eq_of_lt]
    exact (value_lt _).trans_le (Nat.pow_le_pow_right (by omega) (chunk_length_le 64 bits j))

/-- The register has the bits that were added, and nothing else. -/
def Records (bits : List Bool) : Prop :=
  (ofBits bits).getNumBits = bits.length ∧ (ofBits bits).number = some (value bits)

/-- The register records what was added exactly when there are fewer than `2 ^ 32` bits and no
set bit is at position 31 or above of a word. -/
theorem records_iff (bits : List Bool) :
    Records bits ↔
      bits.length < 2 ^ 32 ∧ ∀ i, bits.getD i false = true → i % 64 ≤ 30 := by
  have hcount : (ofBits bits).getNumBits = bits.length ↔ bits.length < 2 ^ 32 := by
    rw [getNumBits_ofBits, u32]
    omega
  have hnumber : (ofBits bits).number = some (value bits) ↔
      ∀ i, bits.getD i false = true → i % 64 ≤ 30 := by
    rw [number_ofBits_iff]
    constructor
    · intro h i hi
      have hlt : i < bits.length := by
        by_contra hge
        rw [List.getD_eq_default _ _ (by omega)] at hi
        cases hi
      have hword := (wordOf_eq_value_iff (chunk_length_le 64 bits (i / 64))).mp
        (h (i / 64) (by omega))
      apply hword
      rw [chunk_getD _ _ (by omega), Nat.div_add_mod, hi]
    · intro h j _
      rw [wordOf_eq_value_iff (chunk_length_le 64 bits j)]
      intro i hi
      have hi64 : i < 64 := by
        by_contra hge
        rw [List.getD_eq_default _ _ ((chunk_length_le 64 bits j).trans (by omega))] at hi
        cases hi
      rw [chunk_getD _ _ hi64] at hi
      have := h _ hi
      omega
  rw [Records, hcount, hnumber]

/-- One bit at position 31 sets all higher bits of the word. -/
theorem bit_thirtyOne_recorded_wrong :
    (ofBits (List.replicate 31 false ++ [true])).number = some 0xffffffff80000000 ∧
    value (List.replicate 31 false ++ [true]) = 0x80000000 ∧
    ¬ Records (List.replicate 31 false ++ [true]) := by
  refine ⟨by decide +kernel, by decide +kernel, ?_⟩
  intro h
  exact absurd h.2 (by decide +kernel)

end JtagRegType

end XvcSupport
