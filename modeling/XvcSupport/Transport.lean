import XvcSupport.Driver

namespace XvcSupport.JtagDriver

/-- `JtagDriverUdp::getMaxVectorSize()`, in unsigned arithmetic. -/
def udpMaxVec (mtu wsz : ℕ) : ℕ := u32 (mtu + (2 ^ 32 - wsz)) / 2

/-- `wrdSiz_` of the AXI FIFO driver, read from its size register. -/
def zynqWrdSiz (sizVal : ℕ) : ℕ := sizVal / 2 ^ 24

/-- One slot of the FIFO always stays empty. -/
def zynqMaxWords (sizVal : ℕ) : ℕ := u32 (sizVal % 2 ^ 24 + (2 ^ 32 - 1))

def zynqMaxVec (sizVal : ℕ) : ℕ :=
  u64 (u64 (zynqMaxWords sizVal + (2 ^ 64 - 1)) * zynqWrdSiz sizVal) / 2

def tmemDepthField (csrVal : ℕ) : ℕ := csrVal / 2 ^ 24 % 2 ^ 4

def tmemWrdSiz : ℕ := 4

def tmemMaxWords (csrVal : ℕ) : ℕ := tmemDepthField csrVal * 2 ^ 10 / tmemWrdSiz

def tmemMaxVec (csrVal : ℕ) : ℕ :=
  u64 (u64 (tmemMaxWords csrVal + (2 ^ 64 - 1)) * tmemWrdSiz) / 2

/-- Every vector of at most `limit` octets makes a message of at most `room`
octets. -/
def Fits (wsz limit room : ℕ) : Prop := ∀ bits, bytesCeil bits ≤ limit → msgOctets wsz bits ≤ room

theorem fits_iff (wsz limit room : ℕ) :
    Fits wsz limit room ↔ wsz + 2 * ((limit + wsz - 1) / wsz * wsz) ≤ room := by
  have hl : bytesCeil (8 * limit) = limit := by unfold bytesCeil; omega
  constructor
  · intro h
    simpa only [msgOctets, hl] using h (8 * limit) hl.le
  · intro h bits hb
    refine (msgOctets_mono wsz (hb.trans hl.ge)).trans ?_
    simpa only [msgOctets, hl] using h

/-- Rounding the half of what is left beside the header up to words fits exactly
when it was a whole number of words already. -/
theorem fits_half_iff {wsz room : ℕ} (hw : 0 < wsz) (hroom : wsz ≤ room) :
    Fits wsz ((room - wsz) / 2) room ↔ wsz ∣ (room - wsz) / 2 := by
  rw [fits_iff]
  set l := (room - wsz) / 2
  have hle := le_ceil_mul hw l
  constructor
  · intro h
    have he : (l + wsz - 1) / wsz * wsz = l := by omega
    exact he ▸ Nat.dvd_mul_left wsz _
  · rintro ⟨c, hc⟩
    have hd : (l + wsz - 1) / wsz = c := by
      rw [hc, Nat.add_sub_assoc hw, Nat.mul_add_div hw, Nat.div_eq_of_lt (by omega), Nat.add_zero]
    rw [hd, Nat.mul_comm c, ← hc]
    omega

/-- In words: half of `maxWords - 1` words is whole only for odd `maxWords`. -/
theorem fits_words_iff {wsz maxWords : ℕ} (hw : 2 ≤ wsz) (hm : 1 ≤ maxWords) :
    Fits wsz ((maxWords - 1) * wsz / 2) (maxWords * wsz) ↔ Odd maxWords := by
  have hroom : (maxWords - 1) * wsz = maxWords * wsz - wsz := Nat.sub_one_mul maxWords wsz
  rw [hroom, fits_half_iff (by omega) (Nat.le_mul_of_pos_left wsz hm), ← hroom]
  obtain ⟨k, rfl⟩ : ∃ k, maxWords = k + 1 := ⟨maxWords - 1, by omega⟩
  rw [Nat.add_sub_cancel, Nat.odd_add_one, Nat.not_odd_iff_even]
  constructor
  · rintro ⟨c, hc⟩
    have hk := Nat.div_add_mod (k * wsz) 2
    have hlt := Nat.mod_lt (k * wsz) (by decide : 0 < 2)
    -- the remainder is below the word size, so `k` is twice the quotient
    have h2c : 2 * c ≤ k := by
      by_contra hcon
      have : wsz * (k + 1) ≤ wsz * (2 * c) := Nat.mul_le_mul_left wsz (by omega)
      have e1 : wsz * (k + 1) = k * wsz + wsz := by ring
      have e2 : wsz * (2 * c) = 2 * (wsz * c) := by ring
      omega
    have hk2 : k ≤ 2 * c := by
      by_contra hcon
      have : wsz * (2 * c + 1) ≤ wsz * k := Nat.mul_le_mul_left wsz (by omega)
      have e1 : wsz * (2 * c + 1) = 2 * (wsz * c) + wsz := by ring
      have e2 : wsz * k = k * wsz := Nat.mul_comm _ _
      omega
    exact ⟨c, by omega⟩
  · rintro ⟨c, rfl⟩
    refine ⟨c, ?_⟩
    have : (c + c) * wsz = 2 * (wsz * c) := by ring
    omega

/-- A UDP driver with its MTU and the word size of its target. -/
structure UdpPort where
  mtu : ℕ
  wordSize : ℕ
  mtu_lt : mtu < 2 ^ 32
  four_le : 4 ≤ wordSize
  le_sixteen : wordSize ≤ 16
  wordSize_lt : wordSize < mtu

/-- An AXI FIFO with the size register its driver reads. -/
structure ZynqFifo where
  sizVal : ℕ
  sizVal_lt : sizVal < 2 ^ 32
  three_le : 3 ≤ zynqMaxWords sizVal
  four_le : 4 ≤ zynqWrdSiz sizVal
  le_sixteen : zynqWrdSiz sizVal ≤ 16

/-- A TMEM FIFO with the CSR its driver reads. -/
structure TmemFifo where
  csrVal : ℕ
  one_le : 1 ≤ tmemDepthField csrVal

theorem UdpPort.maxVec_eq (u : UdpPort) :
    udpMaxVec u.mtu u.wordSize = (u.mtu - u.wordSize) / 2 := by
  have h1 := u.mtu_lt
  have h2 := u.wordSize_lt
  unfold udpMaxVec u32
  omega

theorem ZynqFifo.maxVec_eq (z : ZynqFifo) :
    zynqMaxVec z.sizVal = (zynqMaxWords z.sizVal - 1) * zynqWrdSiz z.sizVal / 2 := by
  have h3 := z.three_le
  have h16 := z.le_sixteen
  have hlt : zynqMaxWords z.sizVal < 2 ^ 32 := Nat.mod_lt _ (by decide)
  have hsub : u64 (zynqMaxWords z.sizVal + (2 ^ 64 - 1)) = zynqMaxWords z.sizVal - 1 := by
    unfold u64
    omega
  have hmul : (zynqMaxWords z.sizVal - 1) * zynqWrdSiz z.sizVal ≤ 2 ^ 32 * 16 :=
    Nat.mul_le_mul (by omega) h16
  rw [zynqMaxVec, hsub, u64, Nat.mod_eq_of_lt (by omega)]

theorem TmemFifo.maxVec_eq (t : TmemFifo) :
    tmemMaxVec t.csrVal = (tmemMaxWords t.csrVal - 1) * tmemWrdSiz / 2 := by
  have h1 := t.one_le
  have hlt : tmemDepthField t.csrVal < 2 ^ 4 := Nat.mod_lt _ (by decide)
  have hw : tmemWrdSiz = 4 := rfl
  unfold tmemMaxVec tmemMaxWords u64
  rw [hw]
  omega

/-- A multiple of 256 words is never odd. -/
theorem TmemFifo.maxWords_even (t : TmemFifo) : ¬ Odd (tmemMaxWords t.csrVal) := by
  have hw : tmemMaxWords t.csrVal = 2 * (128 * tmemDepthField t.csrVal) := by
    unfold tmemMaxWords tmemWrdSiz
    omega
  rw [hw, Nat.not_odd_iff_even]
  exact even_two_mul _

/-- Which transports carry every message of at most their vector limit: UDP when
half of the MTU beside the header is a whole number of words, the AXI FIFO when it
holds an odd number of words, the TMEM FIFO never. -/
theorem message_fits_transport_iff (u : UdpPort) (z : ZynqFifo) (t : TmemFifo) :
    (Fits u.wordSize (udpMaxVec u.mtu u.wordSize) u.mtu ↔
      u.wordSize ∣ (u.mtu - u.wordSize) / 2) ∧
    (Fits (zynqWrdSiz z.sizVal) (zynqMaxVec z.sizVal)
      (zynqMaxWords z.sizVal * zynqWrdSiz z.sizVal) ↔ Odd (zynqMaxWords z.sizVal)) ∧
    ¬ Fits tmemWrdSiz (tmemMaxVec t.csrVal) (tmemMaxWords t.csrVal * tmemWrdSiz) := by
  refine ⟨?_, ?_, ?_⟩
  · rw [u.maxVec_eq]
    exact fits_half_iff (by have := u.four_le; omega) u.wordSize_lt.le
  · rw [z.maxVec_eq]
    exact fits_words_iff (by have := z.four_le; omega) (by have := z.three_le; omega)
  · have h1 := t.one_le
    have hm : 1 ≤ tmemMaxWords t.csrVal := by
      unfold tmemMaxWords tmemWrdSiz
      omega
    rw [t.maxVec_eq, fits_words_iff (by decide) hm]
    exact t.maxWords_even

/-- The default MTU of 1450 octets and a word size of four: a vector of 723 octets
is within the limit, but its message takes 1452. -/
theorem udp_default_mtu_overflows : ¬ Fits 4 (udpMaxVec 1450 4) 1450 := by
  intro h
  have hbits : bytesCeil (8 * 723) ≤ udpMaxVec 1450 4 := by decide
  have hmsg : msgOctets 4 (8 * 723) = 1452 := by decide
  have := h (8 * 723) hbits
  omega

end XvcSupport.JtagDriver
