import XvcSupport.Connection

namespace XvcSupport

/-- The segments in which TCP passes a sequence of octets on. -/
structure Cut (bs : List Byte) where
  segs : List (List Byte)
  ne_nil : ∀ seg ∈ segs, seg ≠ []
  flatten : segs.flatten = bs

namespace XvcClient

open XvcConn (ascii)

/-- The loop of `_recv`; a call of `recv` takes from one segment what fits. -/
def recvLoop (minl maxl : ℕ) (b : List Byte) :
    List (List Byte) → Option (List Byte × List (List Byte))
  | [] => if b.length < minl then none else some (b, [])
  | seg :: segs =>
    if b.length < minl then
      if seg.length ≤ maxl - b.length then recvLoop minl maxl (b ++ seg) segs
      else some (b ++ seg.take (maxl - b.length), seg.drop (maxl - b.length) :: segs)
    else some (b, seg :: segs)

/-- `_recv`; nothing is returned when the octets end. -/
def recv (minl maxl : ℕ) (segs : List (List Byte)) : Option (List Byte × List (List Byte)) :=
  recvLoop minl (if maxl = 0 then minl else maxl) [] segs

def decode (b : List Byte) : List Char := b.map fun x => Char.ofNat x.toNat

def getinfo (segs : List (List Byte)) : Option (List Char × List (List Byte)) :=
  (recv 10 100 segs).map fun (b, segs) => (decode b, segs)

def strip (cs : List Char) : List Char :=
  ((cs.dropWhile Char.isWhitespace).reverse.dropWhile Char.isWhitespace).reverse

def digits (cs : List Char) : Option ℤ :=
  if cs ≠ [] ∧ cs.all Char.isDigit then some (Nat.ofDigitChars 10 cs 0) else none

/-- Python's `int` of a text, without underscores between digits. -/
def pyInt (cs : List Char) : Option ℤ :=
  match strip cs with
  | '-' :: cs => (digits cs).map Neg.neg
  | '+' :: cs => digits cs
  | cs => digits cs

/-- `getMaxVectorBits`, for the value of `maxv_` before. -/
def getMaxVectorBits (maxv : Option ℤ) (segs : List (List Byte)) :
    Option (ℤ × List (List Byte)) :=
  match maxv with
  | some n => some (n, segs)
  | none => do
    let (info, segs) ← getinfo segs
    let n ← pyInt (← (info.splitOn ':')[1]?)
    return (n, segs)

/-- What `sendVecs` reads: the octets of TDO. -/
def recvVec (nbytes : ℕ) (segs : List (List Byte)) : Option (List Byte × List (List Byte)) :=
  recv nbytes nbytes segs

variable {minl maxl : ℕ} {b : List Byte} {segs : List (List Byte)}

/-- The loop reads everything if the least number is reached with the last segment only. -/
theorem recvLoop_all (hmax : b.length + segs.flatten.length ≤ maxl)
    (hlt : segs ≠ [] → b.length + segs.dropLast.flatten.length < minl)
    (hle : minl ≤ b.length + segs.flatten.length) :
    recvLoop minl maxl b segs = some (b ++ segs.flatten, []) := by
  induction segs generalizing b with
  | nil =>
    simp at hle
    simp [recvLoop, hle]
  | cons seg segs ih =>
    have hb := hlt (by simp)
    rw [List.flatten_cons, List.length_append] at hmax hle
    rw [recvLoop, if_pos (by omega), if_pos (by omega), ih, List.flatten_cons, List.append_assoc]
    · rw [List.length_append]
      omega
    · intro hne
      rw [List.dropLast_cons_of_ne_nil hne, List.flatten_cons, List.length_append] at hb
      rw [List.length_append]
      omega
    · rw [List.length_append]
      omega

/-- If it is reached before, the last segment is left. -/
theorem recvLoop_early (hne : segs ≠ []) (hmax : b.length + segs.flatten.length ≤ maxl)
    (hle : minl ≤ b.length + segs.dropLast.flatten.length) :
    ∃ b' left, recvLoop minl maxl b segs = some (b', left) ∧ left ≠ [] ∧ left <:+ segs := by
  induction segs generalizing b with
  | nil => exact absurd rfl hne
  | cons seg segs ih =>
    rw [List.flatten_cons, List.length_append] at hmax
    by_cases hb : b.length < minl
    · have hsegs : segs ≠ [] := by
        rintro rfl
        simp at hle
        omega
      rw [List.dropLast_cons_of_ne_nil hsegs, List.flatten_cons, List.length_append] at hle
      obtain ⟨b', left, heq, hleft, hsuffix⟩ := ih (b := b ++ seg) hsegs
        (by rw [List.length_append]; omega) (by rw [List.length_append]; omega)
      refine ⟨b', left, ?_, hleft, hsuffix.trans (List.suffix_cons seg segs)⟩
      rw [recvLoop, if_pos hb, if_pos (by omega), heq]
    · refine ⟨b, seg :: segs, ?_, by simp, List.suffix_rfl⟩
      rw [recvLoop, if_neg hb]

/-- The reply to `getinfo:`. -/
def info (n : ℕ) : String := "xvcServer_v1.0:" ++ toString n ++ "\n"

theorem info_toList (n : ℕ) :
    (info n).toList = "xvcServer_v1.0".toList ++ ':' :: (Nat.toDigits 10 n ++ ['\n']) := by
  simp [info, String.toList_append]

theorem digit_chars {c : Char} (h : c.isDigit = true) :
    c.isWhitespace = false ∧ c ≠ ':' ∧ c ≠ '-' ∧ c ≠ '+' ∧ c.toNat < 256 := by
  have hval : c.toNat ≤ 57 := by
    have h57 := (Bool.and_eq_true_iff.mp h).2
    simpa [UInt32.le_iff_toNat_le] using h57
  have hne : ∀ d : Char, d.isDigit = false → c ≠ d := by
    rintro d hd rfl
    rw [h] at hd
    cases hd
  refine ⟨?_, hne _ (by decide), hne _ (by decide), hne _ (by decide), by omega⟩
  simp [Char.isWhitespace, hne]

theorem decode_ascii {s : String} (h : ∀ c ∈ s.toList, c.toNat < 256) :
    decode (ascii s) = s.toList := by
  rw [decode, ascii, List.map_map]
  conv_rhs => rw [← List.map_id s.toList]
  apply List.map_congr_left
  intro c hc
  have hlt := h c hc
  simp [Nat.mod_eq_of_lt hlt]

theorem decode_info (n : ℕ) : decode (ascii (info n)) = (info n).toList := by
  apply decode_ascii
  intro c hc
  rw [info_toList, List.mem_append, List.mem_cons, List.mem_append] at hc
  rcases hc with hc | rfl | hc | hc
  · have hname : ∀ d ∈ "xvcServer_v1.0".toList, d.toNat < 256 := by simp
    exact hname c hc
  · decide
  · exact (digit_chars (Nat.isDigit_of_mem_toDigits (by decide) (by decide) hc)).2.2.2.2
  · rw [List.mem_singleton.mp hc]
    decide

theorem digits_toDigits (n : ℕ) : digits (Nat.toDigits 10 n) = some (n : ℤ) := by
  have hall : (Nat.toDigits 10 n).all Char.isDigit := by
    rw [List.all_eq_true]
    exact fun c hc => Nat.isDigit_of_mem_toDigits (by decide) (by decide) hc
  rw [digits, if_pos ⟨Nat.toDigits_ne_nil, hall⟩, Nat.ofDigitChars_ten_toDigits]

theorem pyInt_eq_digits {cs : List Char} (h : ∀ c ∈ strip cs, c ≠ '-' ∧ c ≠ '+') :
    pyInt cs = digits (strip cs) := by
  unfold pyInt
  split
  next heq => exact absurd rfl (h '-' (by simp [heq])).1
  next heq => exact absurd rfl (h '+' (by simp [heq])).2
  next => rfl

theorem dropWhile_whitespace {cs : List Char} (h : ∀ c ∈ cs, c.isWhitespace = false) :
    cs.dropWhile Char.isWhitespace = cs := by
  cases cs with
  | nil => rfl
  | cons c cs => rw [List.dropWhile_cons_of_neg (by simp [h c])]

/-- The newline behind the digits does not matter. -/
theorem strip_newline {cs : List Char} (hne : cs ≠ [])
    (h : ∀ c ∈ cs, c.isWhitespace = false) : strip (cs ++ ['\n']) = cs := by
  obtain ⟨c, cs, rfl⟩ := List.exists_cons_of_ne_nil hne
  have hfront : (c :: cs ++ ['\n']).dropWhile Char.isWhitespace = c :: cs ++ ['\n'] := by
    rw [List.cons_append, List.dropWhile_cons_of_neg (by simp [h c])]
  have hback : ∀ x ∈ (c :: cs).reverse, x.isWhitespace = false := fun x hx =>
    h x (List.mem_reverse.mp hx)
  rw [strip, hfront, List.reverse_append, List.reverse_singleton, List.singleton_append,
    List.dropWhile_cons_of_pos (by decide), dropWhile_whitespace hback, List.reverse_reverse]

theorem pyInt_digits (n : ℕ) : pyInt (Nat.toDigits 10 n ++ ['\n']) = some (n : ℤ) := by
  have hdigit : ∀ c ∈ Nat.toDigits 10 n, c.isDigit = true := fun c hc =>
    Nat.isDigit_of_mem_toDigits (by decide) (by decide) hc
  have hstrip : strip (Nat.toDigits 10 n ++ ['\n']) = Nat.toDigits 10 n :=
    strip_newline Nat.toDigits_ne_nil fun c hc => (digit_chars (hdigit c hc)).1
  rw [pyInt_eq_digits, hstrip, digits_toDigits]
  rw [hstrip]
  intro c hc
  exact ⟨(digit_chars (hdigit c hc)).2.2.1, (digit_chars (hdigit c hc)).2.2.2.1⟩

theorem splitOn_info (n : ℕ) :
    (info n).toList.splitOn ':' = ["xvcServer_v1.0".toList, Nat.toDigits 10 n ++ ['\n']] := by
  have hcolon : ∀ c ∈ Nat.toDigits 10 n ++ ['\n'], (c == ':') = false := by
    intro c hc
    rw [List.mem_append] at hc
    rcases hc with hc | hc
    · have hdigit := Nat.isDigit_of_mem_toDigits (by decide) (by decide) hc
      simpa using (digit_chars hdigit).2.1
    · rw [List.mem_singleton.mp hc]
      decide
  have hname : ∀ c ∈ "xvcServer_v1.0".toList, (c == ':') = false := by simp
  rw [info_toList, List.splitOn_eq_splitOnP,
    List.splitOnP_append_cons_of_forall_mem hname ':' (by decide),
    List.splitOnP_eq_singleton hcolon]

theorem getMaxVectorBits_info (n : ℕ) {segs : List (List Byte)} {left : List (List Byte)}
    (h : recv 10 100 segs = some (ascii (info n), left)) :
    getMaxVectorBits none segs = some ((n : ℤ), left) := by
  have hsplit : ((info n).toList.splitOn ':')[1]? = some (Nat.toDigits 10 n ++ ['\n']) := by
    rw [splitOn_info]
    rfl
  simp only [getMaxVectorBits, getinfo, h, decode_info, Option.map_some, Option.bind_eq_bind,
    Option.bind_some, hsplit, pyInt_digits, Option.pure_def]

theorem length_info {n : ℕ} (h : n < 2 ^ 63) : (ascii (info n)).length ≤ 35 := by
  have hdigits : (Nat.toDigits 10 n).length ≤ 19 :=
    (Nat.length_toDigits_le_iff (by decide) (by decide)).mpr (by omega)
  have hname : "xvcServer_v1.0".toList.length = 14 := by simp
  rw [ascii, List.length_map, info_toList, List.length_append, hname, List.length_cons,
    List.length_append, List.length_singleton]
  omega

theorem le_length_info (n : ℕ) : 10 ≤ (ascii (info n)).length := by
  have hname : "xvcServer_v1.0".toList.length = 14 := by simp
  rw [ascii, List.length_map, info_toList, List.length_append, hname]
  omega

theorem Cut.dropLast_lt {bs : List Byte} (cut : Cut bs) (hne : cut.segs ≠ []) :
    cut.segs.dropLast.flatten.length < bs.length := by
  have hlast := List.length_pos_iff.mpr (cut.ne_nil _ (List.getLast_mem hne))
  have hsplit := congrArg List.flatten (List.dropLast_append_getLast hne)
  rw [List.flatten_append, List.flatten_singleton, cut.flatten] at hsplit
  have hlength := congrArg List.length hsplit
  rw [List.length_append] at hlength
  omega

theorem recvVec_cut {own : List Byte} (cut : Cut own) :
    recvVec own.length cut.segs = some (own, []) := by
  have hown : cut.segs.flatten.length = own.length := by rw [cut.flatten]
  have hmax : (if own.length = 0 then own.length else own.length) = own.length := by simp
  have hall : recvLoop own.length own.length [] cut.segs = some ([] ++ cut.segs.flatten, []) := by
    apply recvLoop_all
    · simp [hown]
    · intro hne
      simpa using Cut.dropLast_lt cut hne
    · simp [hown]
  rw [recvVec, recv, hmax, hall, List.nil_append, cut.flatten]

/-- A reply of which ten octets are there with the last segment only is read whole. -/
theorem getMaxVectorBits_cut {n : ℕ} (h : n < 2 ^ 63) (cut : Cut (ascii (info n)))
    (hlt : cut.segs.dropLast.flatten.length < 10) :
    getMaxVectorBits none cut.segs = some ((n : ℤ), []) := by
  have hlength : cut.segs.flatten.length = (ascii (info n)).length := by rw [cut.flatten]
  have hmin := le_length_info n
  have hmax := length_info h
  apply getMaxVectorBits_info
  have hall : recvLoop 10 100 [] cut.segs = some ([] ++ cut.segs.flatten, []) := by
    apply recvLoop_all
    · simp only [List.length_nil]
      omega
    · intro _
      simpa using hlt
    · simp only [List.length_nil]
      omega
  rw [recv, if_neg (by decide), hall, List.nil_append, cut.flatten]

/-- The announced number is returned, and nothing remains in front of later replies. -/
def ReadsWhole (n : ℕ) (segs : List (List Byte)) : Prop :=
  ∃ left, getMaxVectorBits none segs = some ((n : ℤ), left) ∧ left.flatten = [] ∧
    ∀ {own : List Byte} (cut : Cut own),
      recvVec own.length (left ++ cut.segs) = some (own, [])

/-- The reply is read whole just when ten octets of it are there with the last segment only. -/
theorem readsWhole_iff (n : ℕ) (h : n < 2 ^ 63) (cut : Cut (ascii (info n))) :
    ReadsWhole n cut.segs ↔ cut.segs.dropLast.flatten.length < 10 := by
  have hlength : cut.segs.flatten.length = (ascii (info n)).length := by rw [cut.flatten]
  have hmin := le_length_info n
  have hmax := length_info h
  have hne : cut.segs ≠ [] := by
    intro hnil
    rw [hnil, List.flatten_nil, List.length_nil] at hlength
    omega
  constructor
  · rintro ⟨left, heq, hleft, -⟩
    by_contra hge
    obtain ⟨b, rest, hloop, hrest, hsuffix⟩ := @recvLoop_early 10 100 [] cut.segs hne
      (by simp only [List.length_nil]; omega) (by simp only [List.length_nil]; omega)
    have hinfo : getinfo cut.segs = some (decode b, rest) := by
      simp [getinfo, recv, hloop]
    -- the octets that are left are the ones that `recv` has left
    have hsame : rest = left := by
      simp only [getMaxVectorBits, hinfo, Option.bind_eq_bind, Option.bind_some] at heq
      obtain ⟨cs, -, heq⟩ := Option.bind_eq_some_iff.mp heq
      obtain ⟨x, -, heq⟩ := Option.bind_eq_some_iff.mp heq
      exact (Prod.mk.inj (Option.some.inj heq)).2
    rw [← hsame] at hleft
    obtain ⟨seg, hseg⟩ := List.exists_mem_of_ne_nil rest hrest
    exact cut.ne_nil seg (hsuffix.subset hseg) (List.flatten_eq_nil_iff.mp hleft seg hseg)
  · intro hlt
    exact ⟨[], getMaxVectorBits_cut h cut hlt, rfl, fun cut => recvVec_cut cut⟩

/-- A reply that comes in one segment. -/
def oneSegment : Cut (ascii (info 32768)) where
  segs := [ascii (info 32768)]
  ne_nil := by
    intro seg hseg hnil
    have hmin := le_length_info 32768
    rw [← List.mem_singleton.mp hseg, hnil] at hmin
    simp at hmin
  flatten := by simp

theorem readsWhole_oneSegment : ReadsWhole 32768 oneSegment.segs :=
  (readsWhole_iff 32768 (by decide) oneSegment).mpr (by simp [oneSegment])

theorem info_32768 : ascii (info 32768) =
    ascii "xvcServer_v1.0:3276" ++ ascii "8\n" := by
  have hdigits : Nat.toDigits 10 32768 = ['3', '2', '7', '6', '8'] := by decide
  simp [ascii, info, hdigits]

/-- A reply that is cut before its last digit. -/
def cutNumber : Cut (ascii (info 32768)) where
  segs := [ascii "xvcServer_v1.0:3276", ascii "8\n"]
  ne_nil := by simp [ascii]
  flatten := by simp [info_32768]

theorem getMaxVectorBits_cutNumber :
    getMaxVectorBits none cutNumber.segs = some (3276, [ascii "8\n"]) ∧
      ¬ ReadsWhole 32768 cutNumber.segs := by
  have heq : getMaxVectorBits none cutNumber.segs = some (3276, [ascii "8\n"]) := by
    have hname : ascii "xvcServer_v1.0:3276" =
        [120, 118, 99, 83, 101, 114, 118, 101, 114, 95, 118, 49, 46, 48, 58, 51, 50, 55, 54] := by
      simp [ascii]
    simp only [cutNumber, hname]
    rfl
  refine ⟨heq, ?_⟩
  rintro ⟨left, hleft, -⟩
  rw [heq] at hleft
  exact absurd (Prod.mk.inj (Option.some.inj hleft)).1 (by decide)

end XvcClient

end XvcSupport
