import XvcSupport.FifoDrivers

namespace XvcSupport

open RegisterDriver FifoDriver JtagDriver

/-- A FIFO: the words written since the last frame, the frames, and how often was read. -/
structure Fifo where
  out : List (BitVec 32)
  frames : List (List (BitVec 32))
  polls : ℕ
  reads : ℕ

namespace Fifo

def push (s : Fifo) (w : BitVec 32) : Fifo := { s with out := s.out ++ [w] }

def close (s : Fifo) : Fifo := { s with out := [], frames := s.frames ++ [s.out] }

end Fifo

/-- The octets of replies, from word `p` on. -/
def octets (ord : BitVec 32 → BitVec 32) (dat : ℕ → BitVec 32) (p : ℕ) : Mem := fun j =>
  (ord (dat (p + j / 4))).extractLsb' (8 * (j % 4)) 8

/-- The number of words that hold `n` octets. -/
def wordsFor (n : ℕ) : ℕ := (n + 3) / 4

theorem octets_word (ord : BitVec 32 → BitVec 32) (dat : ℕ → BitVec 32) (p k : ℕ) {j : ℕ}
    (hj : j < 4) : memOf (unpackLE 4 (ord (dat (p + k)))) j = octets ord dat p (4 * k + j) := by
  have hdiv : (4 * k + j) / 4 = k := by omega
  have hmod : (4 * k + j) % 4 = j := by omega
  rw [octets, hdiv, hmod, memOf, List.getD_eq_getElem _ _ (by simpa using hj)]
  simp [unpackLE]

theorem memcpy_octets (ord : BitVec 32 → BitVec 32) (dat : ℕ → BitVec 32) (p off : ℕ) (m : Mem)
    (k : ℕ) {r : ℕ} (hr : r ≤ 4) :
    memcpy (memcpy m 0 (octets ord dat p) (4 * off) (4 * k)) (4 * k)
      (memOf (unpackLE 4 (ord (dat (p + (off + k)))))) 0 r =
    memcpy m 0 (octets ord dat p) (4 * off) (4 * k + r) := by
  funext i
  unfold memcpy
  by_cases hlt : i < 4 * k
  · rw [if_neg (by omega), if_pos (by omega), if_pos (by omega)]
  · by_cases hle : i < 4 * k + r
    · have hoff : 4 * (off + k) + (i - 4 * k) = i - 0 + 4 * off := by omega
      rw [if_pos (by omega), if_pos (by omega), Nat.add_zero,
        octets_word ord dat p (off + k) (by omega), hoff]
    · rw [if_neg (by omega), if_neg (by omega), if_neg (by omega)]

section

variable {regs : Registers Fifo} {ord : BitVec 32 → BitVec 32} {idx : ℕ} {dat : ℕ → BitVec 32}

/-- A transfer when `n` words of a reply are read, `h` octets of the header and `r` octets behind
the header of `hsize` octets being passed on. -/
def Transfer.after (ord : BitVec 32 → BitVec 32) (dat : ℕ → BitVec 32) (t : Transfer Fifo)
    (hsize h r n : ℕ) : Transfer Fifo :=
  { t with
    hdbuf := memcpy t.hdbuf 0 (octets ord dat t.dev.reads) 0 h
    rxb := memcpy t.rxb 0 (octets ord dat t.dev.reads) hsize r
    dev := { t.dev with reads := t.dev.reads + n } }

theorem memcpy_zero (m src : Mem) (d s : ℕ) : memcpy m d src s 0 = m := by
  funext i
  rw [memcpy, if_neg (by omega)]

theorem Transfer.after_zero (t : Transfer Fifo) (hsize : ℕ) :
    t.after ord dat hsize 0 0 0 = t := by
  simp [Transfer.after, memcpy_zero]

theorem Transfer.header_step (t : Transfer Fifo) (hsize k n : ℕ) :
    { t.after ord dat hsize (4 * k) 0 n with
      hdbuf := memcpy (t.after ord dat hsize (4 * k) 0 n).hdbuf (4 * k)
        (memOf (unpackLE 4 (ord (dat (t.dev.reads + k))))) 0 4 } =
      t.after ord dat hsize (4 * (k + 1)) 0 n := by
  have hcopy := memcpy_octets ord dat t.dev.reads 0 t.hdbuf k (le_refl 4)
  rw [Nat.mul_zero, Nat.zero_add] at hcopy
  simp only [Transfer.after, hcopy, Nat.mul_succ]

theorem Transfer.payload_step (t : Transfer Fifo) (off h k n : ℕ) {r : ℕ} (hr : r ≤ 4) :
    { t.after ord dat (4 * off) h (4 * k) n with
      rxb := memcpy (t.after ord dat (4 * off) h (4 * k) n).rxb (4 * k)
        (memOf (unpackLE 4 (ord (dat (t.dev.reads + (off + k)))))) 0 r } =
      t.after ord dat (4 * off) h (4 * k + r) n := by
  simp only [Transfer.after, memcpy_octets ord dat t.dev.reads off t.rxb k hr]

theorem ofNat_lt {n : ℕ} {w : BitVec 32} (h : n < 2 ^ 32) :
    BitVec.ofNat 32 n < w ↔ n < w.toNat := by
  rw [BitVec.lt_def, BitVec.toNat_ofNat, Nat.mod_eq_of_lt h]

theorem ofNat_add_four (k : ℕ) :
    BitVec.ofNat 32 (4 * k) + 4 = BitVec.ofNat 32 (4 * (k + 1)) := by
  rw [Nat.mul_succ, BitVec.ofNat_add]
  rfl

variable (ord) (hdat : ∀ s, regs.rd idx s = (dat s.reads, { s with reads := s.reads + 1 }))
include hdat

theorem i32_after (t : Transfer Fifo) (hsize h r n : ℕ) :
    i32 regs idx (t.after ord dat hsize h r n) =
      (dat (t.dev.reads + n), t.after ord dat hsize h r (n + 1)) := by
  rw [i32, hdat]
  rfl

theorem readHeader_eq {hsize got : BitVec 32} (hmod : hsize.toNat % 4 = 0) (hle : hsize ≤ got)
    {fuel : ℕ} (hfuel : hsize.toNat < fuel) (t : Transfer Fifo) :
    readHeader regs ord idx hsize got fuel t = Run.returned (hsize, got - hsize,
      t.after ord dat hsize.toNat hsize.toNat 0 (hsize.toNat / 4)) := by
  -- the state when `k` words are read
  let f : ℕ → BitVec 32 × BitVec 32 × Transfer Fifo := fun k =>
    (BitVec.ofNat 32 (4 * k), got - BitVec.ofNat 32 (4 * k),
      t.after ord dat hsize.toNat (4 * k) 0 k)
  have hbound := hsize.isLt
  have hle' := BitVec.le_def.mp hle
  have hmul : 4 * (hsize.toNat / 4) = hsize.toNat := by omega
  have hstart : f 0 = (0, got, t) := by
    simp [f, Transfer.after_zero]
  have hend : f (hsize.toNat / 4) = (hsize, got - hsize,
      t.after ord dat hsize.toNat hsize.toNat 0 (hsize.toNat / 4)) := by
    simp only [f, hmul, BitVec.ofNat_toNat, BitVec.setWidth_eq]
  apply loop_stops f hstart hend
  · intro k hk
    have hlt : 4 * k < hsize.toNat := by omega
    refine ⟨by simp [f, ofNat_lt (show 4 * k < 2 ^ 32 by omega), hlt], ?_⟩
    have hidx : (BitVec.ofNat 32 (4 * k)).toNat = 4 * k := by
      rw [BitVec.toNat_ofNat, Nat.mod_eq_of_lt (by omega)]
    -- four octets are left, since the whole header has arrived
    have hfour : ¬ got - BitVec.ofNat 32 (4 * k) < 4 := by
      rw [BitVec.not_lt, BitVec.le_def, BitVec.toNat_sub_of_le, hidx]
      · have h4 : (4 : BitVec 32).toNat = 4 := rfl
        omega
      · rw [BitVec.le_def, hidx]
        omega
    simp only [f, i32_after ord hdat, if_neg hfour, hidx, Transfer.header_step,
      ← ofNat_add_four, BitVec.sub_sub]
  · simp
  · omega

theorem readWords_eq (off h : ℕ) (minw : BitVec 32) (hbound : 4 * minw.toNat < 2 ^ 32)
    {fuel : ℕ} (hfuel : minw.toNat < fuel) (t : Transfer Fifo) :
    readWords regs ord idx minw fuel (t.after ord dat (4 * off) h 0 off) =
      Run.returned (BitVec.ofNat 32 (4 * minw.toNat),
        t.after ord dat (4 * off) h (4 * minw.toNat) (off + minw.toNat)) := by
  let f : ℕ → BitVec 32 × Transfer Fifo := fun k =>
    (BitVec.ofNat 32 (4 * k), t.after ord dat (4 * off) h (4 * k) (off + k))
  have hmul : (4 * minw).toNat = 4 * minw.toNat := by
    rw [BitVec.toNat_mul]
    exact Nat.mod_eq_of_lt hbound
  apply loop_stops f rfl rfl
  · intro k hk
    have hlt : BitVec.ofNat 32 (4 * k) < 4 * minw := by
      rw [ofNat_lt (by omega), hmul]
      omega
    refine ⟨decide_eq_true hlt, ?_⟩
    have hidx : (BitVec.ofNat 32 (4 * k)).toNat = 4 * k := by
      rw [BitVec.toNat_ofNat, Nat.mod_eq_of_lt (by omega)]
    simp only [f, i32_after ord hdat, hidx, Transfer.payload_step t off h k _ (le_refl 4),
      ofNat_add_four, Nat.mul_succ, Nat.add_assoc]
  · have hge : ¬ BitVec.ofNat 32 (4 * minw.toNat) < 4 * minw := by
      rw [ofNat_lt hbound, hmul]
      omega
    simp only [f, hge, decide_false]
  · exact hfuel

theorem readRest_eq (off h : ℕ) (min : BitVec 32) (t : Transfer Fifo) :
    readRest regs ord idx (min - BitVec.ofNat 32 (4 * (min.toNat / 4)))
        (BitVec.ofNat 32 (4 * (min.toNat / 4)))
        (t.after ord dat (4 * off) h (4 * (min.toNat / 4)) (off + min.toNat / 4)) =
      (BitVec.ofNat 32 (4 * wordsFor min.toNat),
        t.after ord dat (4 * off) h min.toNat (off + wordsFor min.toNat)) := by
  have hbound := min.isLt
  have hidx : (BitVec.ofNat 32 (4 * (min.toNat / 4))).toNat = 4 * (min.toNat / 4) := by
    rw [BitVec.toNat_ofNat, Nat.mod_eq_of_lt (by omega)]
  have hrem : (min - BitVec.ofNat 32 (4 * (min.toNat / 4))).toNat = min.toNat % 4 := by
    rw [BitVec.toNat_sub_of_le, hidx]
    · omega
    · rw [BitVec.le_def, hidx]
      omega
  by_cases hzero : min.toNat % 4 = 0
  · have hwords : wordsFor min.toNat = min.toNat / 4 := by
      unfold wordsFor
      omega
    have hmul : 4 * (min.toNat / 4) = min.toNat := by omega
    rw [readRest, if_neg, hwords, hmul]
    rw [not_not, ← BitVec.toNat_inj, hrem, hzero]
    rfl
  · have hwords : wordsFor min.toNat = min.toNat / 4 + 1 := by
      unfold wordsFor
      omega
    have hmul : 4 * (min.toNat / 4) + min.toNat % 4 = min.toNat := by omega
    rw [readRest, if_pos]
    · simp only [i32_after ord hdat, hidx, hrem, hwords, ofNat_add_four,
        Transfer.payload_step t off h _ _ (show min.toNat % 4 ≤ 4 by omega), hmul, Nat.add_assoc]
    · rw [ne_eq, ← BitVec.toNat_inj, hrem]
      exact hzero

theorem discard_eq {off h r m : ℕ} (got : BitVec 32) (hgot : got.toNat ≤ 2 ^ 32 - 4)
    (hm : m ≤ wordsFor got.toNat) {fuel : ℕ} (hfuel : got.toNat < fuel) (t : Transfer Fifo) :
    discard regs idx got (BitVec.ofNat 32 (4 * m)) fuel (t.after ord dat (4 * off) h r (off + m)) =
      Run.returned (BitVec.ofNat 32 (4 * wordsFor got.toNat),
        t.after ord dat (4 * off) h r (off + wordsFor got.toNat)) := by
  unfold wordsFor at hm ⊢
  let f : ℕ → BitVec 32 × Transfer Fifo := fun k =>
    (BitVec.ofNat 32 (4 * (m + k)), t.after ord dat (4 * off) h r (off + (m + k)))
  have hend : m + ((got.toNat + 3) / 4 - m) = (got.toNat + 3) / 4 := by omega
  apply loop_stops f rfl (n := (got.toNat + 3) / 4 - m) (by simp only [f, hend])
  · intro k hk
    have hlt : 4 * (m + k) < got.toNat := by omega
    refine ⟨by simp [f, ofNat_lt (show 4 * (m + k) < 2 ^ 32 by omega), hlt], ?_⟩
    simp only [f, i32_after ord hdat, ofNat_add_four, Nat.add_assoc]
  · have hge : got.toNat ≤ 4 * ((got.toNat + 3) / 4) := by omega
    simp [ofNat_lt (show 4 * ((got.toNat + 3) / 4) < 2 ^ 32 by omega), hge]
  · omega

theorem discard_runs {off h r m : ℕ} (got : BitVec 32) (hgot : 2 ^ 32 - 4 < got.toNat)
    (fuel : ℕ) (t : Transfer Fifo) :
    discard regs idx got (BitVec.ofNat 32 (4 * m)) fuel (t.after ord dat (4 * off) h r (off + m)) =
      Run.running := by
  let f : ℕ → BitVec 32 × Transfer Fifo := fun k =>
    (BitVec.ofNat 32 (4 * (m + k)), t.after ord dat (4 * off) h r (off + (m + k)))
  apply loop_runs f rfl
  intro k
  have hlt : BitVec.ofNat 32 (4 * (m + k)) < got := by
    rw [BitVec.lt_def, BitVec.toNat_ofNat]
    omega
  refine ⟨by simp [f, hlt], ?_⟩
  simp only [f, i32_after ord hdat, ofNat_add_four, Nat.add_assoc]

def least (got hsize size : BitVec 32) : BitVec 32 :=
  if size < got - hsize then size else got - hsize

omit hdat in
theorem least_le (got hsize size : BitVec 32) : least got hsize size ≤ got - hsize := by
  unfold least
  split_ifs with hlt
  · exact BitVec.le_of_lt hlt
  · exact BitVec.le_refl _

theorem receive_first_words (drEn : Bool) {hsize size got : BitVec 32} (hmod : hsize.toNat % 4 = 0)
    (hle : hsize ≤ got) (hpos : got ≠ 0) {fuel : ℕ} (hfuel : got.toNat < fuel)
    (t : Transfer Fifo) :
    receive regs ord idx drEn hsize size got fuel t =
      discard regs idx (got - hsize)
        (BitVec.ofNat 32 (4 * wordsFor (least got hsize size).toNat)) fuel
        (t.after ord dat (4 * (hsize.toNat / 4)) hsize.toNat (least got hsize size).toNat
          (hsize.toNat / 4 + wordsFor (least got hsize size).toNat)) >>=
      fun a => finish drEn (least got hsize size) a.2 := by
  have hle' := BitVec.le_def.mp hle
  have hleast := BitVec.le_def.mp (least_le got hsize size)
  have hsub : (got - hsize).toNat = got.toNat - hsize.toNat := BitVec.toNat_sub_of_le hle
  have hoff : 4 * (hsize.toNat / 4) = hsize.toNat := by omega
  have hdiv : (least got hsize size / 4).toNat = (least got hsize size).toNat / 4 :=
    BitVec.toNat_udiv
  have hfour : 4 * (least got hsize size / 4).toNat < 2 ^ 32 := by omega
  have hheader := readHeader_eq ord hdat hmod hle (show hsize.toNat < fuel by omega) t
  have hpayload := readWords_eq ord hdat (hsize.toNat / 4) hsize.toNat
    (least got hsize size / 4) hfour
    (show (least got hsize size / 4).toNat < fuel by omega) t
  have hrest := readRest_eq ord hdat (hsize.toNat / 4) hsize.toNat (least got hsize size) t
  rw [hdiv] at hpayload
  rw [hoff] at hpayload hrest ⊢
  rw [receive, if_neg hpos, hheader]
  simp only [returned_bind]
  rw [← least, hpayload]
  simp only [returned_bind]
  rw [hrest]

theorem receive_eq (drEn : Bool) {hsize size got : BitVec 32} (hmod : hsize.toNat % 4 = 0)
    (hle : hsize ≤ got) (hpos : got ≠ 0) (hgot : (got - hsize).toNat ≤ 2 ^ 32 - 4)
    {fuel : ℕ} (hfuel : got.toNat < fuel) (t : Transfer Fifo) :
    receive regs ord idx drEn hsize size got fuel t = finish drEn (least got hsize size)
      (t.after ord dat hsize.toNat hsize.toNat (least got hsize size).toNat
        (wordsFor got.toNat)) := by
  have hle' := BitVec.le_def.mp hle
  have hleast := BitVec.le_def.mp (least_le got hsize size)
  have hsub : (got - hsize).toNat = got.toNat - hsize.toNat := BitVec.toNat_sub_of_le hle
  have hoff : 4 * (hsize.toNat / 4) = hsize.toNat := by omega
  have hwords : hsize.toNat / 4 + wordsFor (got - hsize).toNat = wordsFor got.toNat := by
    unfold wordsFor
    omega
  rw [receive_first_words ord hdat drEn hmod hle hpos hfuel, discard_eq ord hdat _ hgot,
    returned_bind, hwords, hoff]
  · unfold wordsFor
    omega
  · omega

theorem receive_runs (drEn : Bool) {hsize size got : BitVec 32} (hmod : hsize.toNat % 4 = 0)
    (hle : hsize ≤ got) (hpos : got ≠ 0) (hgot : 2 ^ 32 - 4 < (got - hsize).toNat)
    {fuel : ℕ} (hfuel : got.toNat < fuel) (t : Transfer Fifo) :
    receive regs ord idx drEn hsize size got fuel t = Run.running := by
  rw [receive_first_words ord hdat drEn hmod hle hpos hfuel, discard_runs ord hdat _ hgot,
    running_bind]

omit hdat

variable {ord}

/-- The words that the loop writes; its index into the octets is unsigned, too. -/
def sent (ord : BitVec 32 → BitVec 32) (txb : Mem) (n : ℕ) : List (BitVec 32) :=
  (List.range n).map fun k => ord (packLE 32 (slice txb (4 * k % 2 ^ 32) 4))

/-- A transfer when `ws` is written. -/
def Transfer.written (t : Transfer Fifo) (ws : List (BitVec 32)) : Transfer Fifo :=
  { t with dev := { t.dev with out := t.dev.out ++ ws } }

theorem writeWords_eq (hwr : ∀ w s, regs.wr idx w s = s.push w) (txb : Mem) (txWords : BitVec 32)
    {fuel : ℕ} (hfuel : txWords.toNat < fuel) (t : Transfer Fifo) :
    writeWords regs ord idx txb txWords fuel t =
      Run.returned (txWords, t.written (sent ord txb txWords.toNat)) := by
  let f : ℕ → BitVec 32 × Transfer Fifo := fun k =>
    (BitVec.ofNat 32 k, t.written (sent ord txb k))
  have hbound := txWords.isLt
  apply loop_stops f (n := txWords.toNat) (by simp [f, sent, Transfer.written]) (by simp [f])
  · intro k hk
    have hlt : BitVec.ofNat 32 k < txWords := (ofNat_lt (by omega)).mpr hk
    refine ⟨decide_eq_true hlt, ?_⟩
    have hidx : (4 * BitVec.ofNat 32 k).toNat = 4 * k % 2 ^ 32 := by
      rw [BitVec.toNat_mul, BitVec.toNat_ofNat, Nat.mod_eq_of_lt (show k < 2 ^ 32 by omega)]
      rfl
    simp only [f, o32, hidx, hwr, Fifo.push, Transfer.written, sent, List.range_succ,
      List.map_append,
      List.map_singleton, List.append_assoc, BitVec.ofNat_add]
    rfl
  · simp
  · exact hfuel

/-- A transfer when the status was read `n` times. -/
def Transfer.polled (t : Transfer Fifo) (n : ℕ) : Transfer Fifo :=
  { t with dev := { t.dev with polls := t.dev.polls + n } }

theorem poll_eq {ε : Type} {sta : ℕ → BitVec 32} {ready : BitVec 32 → Bool}
    (hsta : ∀ s, regs.rd idx s = (sta s.polls, { s with polls := s.polls + 1 })) {n : ℕ}
    {t : Transfer Fifo} (hbusy : ∀ k < n, ready (sta (t.dev.polls + k)) = false)
    (hready : ready (sta (t.dev.polls + n)) = true) {fuel : ℕ} (hfuel : n < fuel) :
    (poll regs idx ready fuel t : Run ε (BitVec 32 × Transfer Fifo)) =
      Run.returned (sta (t.dev.polls + n), t.polled (n + 1)) := by
  let f : ℕ → BitVec 32 × Transfer Fifo := fun k => (sta (t.dev.polls + k), t.polled (k + 1))
  apply loop_stops f (n := n)
  · simp only [f, i32, hsta]
    rfl
  · rfl
  · intro k hk
    refine ⟨by simp [f, hbusy k hk], ?_⟩
    simp only [f, i32, hsta]
    rfl
  · simp [hready]
  · exact hfuel

end

end XvcSupport
