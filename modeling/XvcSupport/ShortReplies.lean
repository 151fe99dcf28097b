import XvcSupport.Driver

namespace XvcSupport.JtagDriver

def script : Exchange (List (Except Err (List Byte))) := fun replies _ =>
  match replies with
  | [] => (.error .timeoutErr, [])
  | r :: replies => (r, replies)

/-- `xferRel` tries once more after this reply. -/
def Skipped (xid : Xid) (hsize : ℕ) : Except Err (List Byte) → Prop
  | .error e => e = .timeoutErr
  | .ok reply => hsize ≤ reply.length ∧ judge xid (getHdr reply) = .ignore

/-- Number `i` of the replies is the one that `xferRel` accepts. -/
structure Accepted (xid : Xid) (hsize attempts : ℕ) (replies : List (Except Err (List Byte)))
    (i : ℕ) (reply : List Byte) : Prop where
  lt : i < attempts
  get : replies[i]? = some (.ok reply)
  skipped : ∀ j < i, ∀ r, replies[j]? = some r → Skipped xid hsize r
  header : hsize ≤ reply.length
  judged : judge xid (getHdr reply) = .accept

section Accepts

variable {xid : Xid} {hsize attempts size p i : ℕ} {reply msg : List Byte}
  {replies : List (Except Err (List Byte))} {tdo tdo' : Mem}

theorem Accepted.lt_length (h : Accepted xid hsize attempts replies i reply) :
    i < replies.length :=
  (List.getElem?_eq_some_iff.mp h.get).1

variable (msg attempts size p replies tdo) in
theorem xferRel_skipped {r : Except Err (List Byte)} (h : Skipped xid hsize r) :
    ∃ tdo', xferRel (xfer script msg hsize size p) xid (attempts + 1) (tdo, r :: replies) =
      xferRel (xfer script msg hsize size p) xid attempts (tdo', replies) := by
  cases r with
  | error e =>
    obtain rfl : e = .timeoutErr := h
    exact ⟨tdo, by simp [xferRel, xfer, script]⟩
  | ok reply =>
    obtain ⟨hlen, hj⟩ := h
    refine ⟨memcpy tdo p (memOf (reply.drop hsize)) 0 (min size (reply.length - hsize)), ?_⟩
    simp [xferRel, xfer, script, storeReply, Nat.not_lt.mpr hlen, hj]

theorem Accepted.xferRel (h : Accepted xid hsize attempts replies i reply) :
    ∃ tdo', JtagDriver.xferRel (xfer script msg hsize size p) xid attempts (tdo, replies) =
        (.ok (getHdr reply), tdo', replies.drop (i + 1)) ∧
      ∀ k < min size (reply.length - hsize), tdo' (p + k) = reply.getD (hsize + k) 0 := by
  induction attempts generalizing replies i tdo with
  | zero => exact absurd h.lt (Nat.not_lt_zero i)
  | succ attempts ih =>
    have hpos : 0 < replies.length := (Nat.zero_le i).trans_lt h.lt_length
    obtain ⟨r, replies, rfl⟩ := List.exists_cons_of_length_pos hpos
    cases i with
    | zero =>
      obtain rfl : r = .ok reply := by simpa using h.get
      refine ⟨memcpy tdo p (memOf (reply.drop hsize)) 0 (min size (reply.length - hsize)), ?_, ?_⟩
      · simp [JtagDriver.xferRel, xfer, script, storeReply, Nat.not_lt.mpr h.header, h.judged]
      · intro k hk
        rw [memcpy_inside hk, memOf, Nat.add_zero, List.getD, List.getD, List.getElem?_drop]
    | succ i =>
      have hskip : Skipped xid hsize r := h.skipped 0 (by omega) r (by simp)
      have hnext : Accepted xid hsize attempts replies i reply :=
        { lt := by have := h.lt; omega
          get := by simpa using h.get
          skipped := fun j hj r hr => h.skipped (j + 1) (by omega) r (by simpa using hr)
          header := h.header
          judged := h.judged }
      obtain ⟨tdo1, hstep⟩ := xferRel_skipped attempts size p msg replies tdo hskip
      rw [hstep]
      exact ih hnext

theorem accepted_of_xferRel {hdr : Header} {s : Mem × List (Except Err (List Byte))}
    (h : JtagDriver.xferRel (xfer script msg hsize size p) xid attempts (tdo, replies) =
      (.ok hdr, s)) : ∃ i reply, Accepted xid hsize attempts replies i reply := by
  induction attempts generalizing replies tdo with
  | zero => simp [JtagDriver.xferRel] at h
  | succ attempts ih =>
    -- a reply that is skipped leaves the attempts after it as they are
    have hlater : ∀ r rs, replies = r :: rs → Skipped xid hsize r →
        ∃ i reply, Accepted xid hsize (attempts + 1) replies i reply := by
      rintro r rs rfl hskip
      obtain ⟨tdo1, hstep⟩ := xferRel_skipped attempts size p msg rs tdo hskip
      rw [hstep] at h
      obtain ⟨i, reply, hacc⟩ := ih h
      refine ⟨i + 1, reply, ?_⟩
      exact
        { lt := Nat.succ_lt_succ hacc.lt
          get := by simpa using hacc.get
          skipped := by
            intro j hj r' hr'
            cases j with
            | zero =>
              obtain rfl : r = r' := by simpa using hr'
              exact hskip
            | succ j => exact hacc.skipped j (by omega) r' (by simpa using hr')
          header := hacc.header
          judged := hacc.judged }
    cases replies with
    | nil =>
      have hstep : JtagDriver.xferRel (xfer script msg hsize size p) xid (attempts + 1) (tdo, []) =
          JtagDriver.xferRel (xfer script msg hsize size p) xid attempts (tdo, []) := by
        simp [JtagDriver.xferRel, xfer, script]
      rw [hstep] at h
      obtain ⟨i, reply, hacc⟩ := ih h
      exact absurd hacc.lt_length (by simp)
    | cons r rs =>
      cases r with
      | error e =>
        by_cases he : e = .timeoutErr
        · exact hlater _ _ rfl he
        · cases e <;> simp [JtagDriver.xferRel, xfer, script] at h he
      | ok reply =>
        by_cases hlen : reply.length < hsize
        · simp [JtagDriver.xferRel, xfer, script, storeReply, hlen] at h
        · cases hj : judge xid (getHdr reply) with
          | accept =>
            exact ⟨0, reply, Nat.succ_pos _, rfl, by simp, by omega, hj⟩
          | ignore => exact hlater _ _ rfl ⟨by omega, hj⟩
          | fail e => simp [JtagDriver.xferRel, xfer, script, storeReply, hlen, hj] at h

end Accepts

/-- A normal return of `sendVectors` has `(bits + 7) / 8` octets of one accepted reply in the
buffer, stored by one call of `xfer`. -/
def FillsTdo (d : Drv) (bits : ℕ) (tms tdi tdo : Mem) (p : ℕ)
    (replies : List (Except Err (List Byte))) : Prop :=
  ∀ l, sendVectors script bits tms tdi p ⟨d, tdo, replies⟩ = (none, l) →
    ∃ i reply, Accepted (getXid (getHdr (d.shiftMsg bits tms tdi))) d.wordSize (d.retry + 1)
        replies i reply ∧
      l.net = replies.drop (i + 1) ∧
      min (u32 (bytesCeil bits)) (reply.length - d.wordSize) = (bits + 7) / 8 ∧
      ∀ k < (bits + 7) / 8, l.tdo (p + k) = reply.getD (d.wordSize + k) 0

section Fills

variable {d : Drv} {bits p i : ℕ} {tms tdi tdo : Mem} {reply : List Byte}
  {replies : List (Except Err (List Byte))}

theorem Accepted.sendVectors
    (h : Accepted (getXid (getHdr (d.shiftMsg bits tms tdi))) d.wordSize (d.retry + 1) replies i
      reply) :
    ∃ l, JtagDriver.sendVectors script bits tms tdi p ⟨d, tdo, replies⟩ = (none, l) ∧
      l.net = replies.drop (i + 1) ∧
      ∀ k < min (u32 (bytesCeil bits)) (reply.length - d.wordSize),
        l.tdo (p + k) = reply.getD (d.wordSize + k) 0 := by
  obtain ⟨tdo', hrel, hbytes⟩ : ∃ tdo', JtagDriver.xferRel (xfer script (d.shiftMsg bits tms tdi)
      d.wordSize (u32 (bytesCeil bits)) p) _ (d.retry + 1) (tdo, replies) = _ ∧ _ := h.xferRel
  exact ⟨⟨d.afterShift bits tms tdi, tdo', replies.drop (i + 1)⟩,
    by simp only [JtagDriver.sendVectors, hrel], rfl, hbytes⟩

theorem Accepted.unique {xid : Xid} {hsize attempts i' : ℕ} {reply' : List Byte}
    (h : Accepted xid hsize attempts replies i reply)
    (h' : Accepted xid hsize attempts replies i' reply')
    (hdrop : replies.drop (i + 1) = replies.drop (i' + 1)) : reply = reply' := by
  have hi := h.lt_length
  have hi' := h'.lt_length
  have hlen := congrArg List.length hdrop
  simp only [List.length_drop] at hlen
  obtain rfl : i = i' := by omega
  simpa using h.get.symm.trans h'.get

/-- `sendVectors` fills the TDO buffer or throws, if and only if the first reply that is neither
late nor carries another ID, and that comes in time and without error, is long enough. -/
theorem fills_tdo_iff (d : Drv) (bits : ℕ) (tms tdi tdo : Mem) (p : ℕ)
    (replies : List (Except Err (List Byte))) :
    FillsTdo d bits tms tdi tdo p replies ↔
      ∀ i reply, Accepted (getXid (getHdr (d.shiftMsg bits tms tdi))) d.wordSize (d.retry + 1)
        replies i reply → d.wordSize + (bits + 7) / 8 ≤ reply.length ∧ bits ≤ 8 * (2 ^ 32 - 1) := by
  have hceil : bytesCeil bits = (bits + 7) / 8 := rfl
  constructor
  · intro h i reply hacc
    obtain ⟨l, hsend, hnet, -⟩ : ∃ l, JtagDriver.sendVectors script bits tms tdi p
        ⟨d, tdo, replies⟩ = (none, l) ∧ l.net = replies.drop (i + 1) ∧ _ := hacc.sendVectors
    obtain ⟨i', reply', hacc', hnet', hmin, -⟩ := h l hsend
    obtain rfl := hacc.unique hacc' (hnet.symm.trans hnet')
    have hheader := hacc.header
    have hu : u32 (bytesCeil bits) < 2 ^ 32 := Nat.mod_lt _ (by decide)
    have hle : (bits + 7) / 8 ≤ u32 (bytesCeil bits) := hmin ▸ Nat.min_le_left _ _
    have hle' : (bits + 7) / 8 ≤ reply.length - d.wordSize := hmin ▸ Nat.min_le_right _ _
    omega
  · intro h l hsend
    have hrel : ∃ hdr s, JtagDriver.xferRel (xfer script (d.shiftMsg bits tms tdi) d.wordSize
        (u32 (bytesCeil bits)) p) (getXid (getHdr (d.shiftMsg bits tms tdi))) (d.retry + 1)
        (tdo, replies) = (.ok hdr, s) := by
      rw [JtagDriver.sendVectors] at hsend
      dsimp only at hsend
      cases hr : JtagDriver.xferRel (xfer script (d.shiftMsg bits tms tdi) d.wordSize
        (u32 (bytesCeil bits)) p) (getXid (getHdr (d.shiftMsg bits tms tdi))) (d.retry + 1)
        (tdo, replies) with
      | mk r s =>
        rw [hr] at hsend
        cases r with
        | error e => simp at hsend
        | ok hdr => exact ⟨hdr, s, rfl⟩
    obtain ⟨hdr, s, hrel⟩ := hrel
    obtain ⟨i, reply, hacc⟩ := accepted_of_xferRel hrel
    obtain ⟨hlong, hbits⟩ := h i reply hacc
    obtain ⟨l', hsend', hnet, hbytes⟩ : ∃ l, JtagDriver.sendVectors script bits tms tdi p
        ⟨d, tdo, replies⟩ = (none, l) ∧ l.net = replies.drop (i + 1) ∧
        ∀ k < min (u32 (bytesCeil bits)) (reply.length - d.wordSize),
          l.tdo (p + k) = reply.getD (d.wordSize + k) 0 := hacc.sendVectors
    obtain rfl : l' = l := by simpa using hsend'.symm.trans hsend
    have hmin : min (u32 (bytesCeil bits)) (reply.length - d.wordSize) = (bits + 7) / 8 := by
      rw [u32_of_lt (by omega)]
      omega
    rw [hmin] at hbytes
    exact ⟨i, reply, hacc, hnet, hmin, hbytes⟩

end Fills

/-- The echoed header of a shift of 32 bits without a single word of TDO is a normal return. -/
theorem header_alone_accepted :
    ¬ FillsTdo (Drv.new (fun _ => 0) 0) 32 (fun _ => 0) (fun _ => 0) (fun _ => 0xee) 0
      [.error .timeoutErr, .ok [0x1f, 0, 0x10, 0x10]] := by
  intro h
  have hacc : Accepted (getXid (getHdr ((Drv.new (fun _ => 0) 0).shiftMsg 32 (fun _ => 0)
      (fun _ => 0)))) 4 6 [.error .timeoutErr, .ok [0x1f, 0, 0x10, 0x10]] 1
      [0x1f, 0, 0x10, 0x10] := by
    refine ⟨by decide, rfl, ?_, le_rfl, by decide⟩
    intro j hj r hr
    obtain rfl : j = 0 := by omega
    obtain rfl : Except.error Err.timeoutErr = r := by simpa using hr
    rfl
  obtain ⟨l, hsend, hnet, -⟩ : ∃ l, sendVectors script 32 (fun _ => 0) (fun _ => 0) 0
      ⟨Drv.new (fun _ => 0) 0, fun _ => 0xee, _⟩ = (none, l) ∧ l.net = _ ∧ _ := hacc.sendVectors
  obtain ⟨i, reply, hacc', hnet', hmin, -⟩ := h l hsend
  obtain rfl := hacc.unique hacc' (hnet.symm.trans hnet')
  exact absurd hmin (by decide)

end XvcSupport.JtagDriver
