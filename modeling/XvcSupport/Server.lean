import XvcSupport.Segmentation

namespace XvcSupport

namespace XvcConn

/-- What a client sends before it closes, and how the stream is cut. -/
structure Client where
  stream : List Byte
  io : Io

/-- The driver after a number of calls. -/
def Behaviour.after (drv : Behaviour) (calls : List DrvCall) : Behaviour :=
  fun more => drv (calls ++ more)

end XvcConn

namespace XvcServer

open XvcConn JtagDriver

/-- What becomes of the server: it waits for another client, `run` returns, an exception leaves
it, SIGPIPE kills it, or it is still at work for a client. -/
inductive Fate
  | accepting
  | returned
  | died (e : Err)
  | killed
  | serving
deriving DecidableEq, Repr

/-- `XvcServer::run` on the clients that come, with a number of messages for each. -/
def run (once : Bool) (cfg : Config) (n : ℕ) : Behaviour → List Client → Fate
  | _, [] => .accepting
  | drv, client :: clients =>
    match XvcConn.run cfg drv client.io client.stream n with
    | (.threw (.sysErr _), c) | (.returned, c) =>
      -- the connection is closed
      if once then .returned else run once cfg n (drv.after c.calls) clients
    | (.threw e, _) => .died e
    | (.killed, _) => .killed
    | (.running, _) => .serving

end XvcServer

namespace XvcConn

/-- The `write()`s for a reply of `tl` octets, from the `i`-th on: how they end, and the number of
the next one. -/
def Io.put (io : Io) (tl i : ℕ) : Progress × ℕ :=
  if tl = 0 then (.returned, i)
  else
    match io.writes i with
    | .takes n => io.put (tl - min (n + 1) tl) (i + 1)
    | .fails => (.threw sendFailed, i + 1)
    | .sigPipe => (.killed, i + 1)
termination_by tl

/-- The reply does not meet SIGPIPE, and if it goes out so does what comes `next`. -/
def Io.spares (io : Io) (tl i : ℕ) (next : ℕ → Bool) : Bool :=
  match io.put tl i with
  | (.returned, j) => next j
  | (.threw _, _) => true
  | _ => false

/-- The reply to `getinfo:`. -/
def info (maxVecLen : ℕ) : List Byte := ascii ("xvcServer_v1.0:" ++ toString maxVecLen ++ "\n")

end XvcConn

namespace XvcServer

open XvcConn JtagDriver

/-- The messages of a stream, up to one that is cut short or whose reply cannot be sent, are of the
three kinds, no shift has more bits than the server takes, and no reply meets SIGPIPE; `i` is the
number of the next `write()`. -/
def harmless (maxVecLen : ℕ) (io : Io) : ℕ → ℕ → List Byte → Bool
  | 0, _, _ => true
  | n + 1, i, s =>
    if s.length < 2 then true
    else if slice (memOf s) 0 2 = ascii "ge" then
      if s.length < 8 then true
      else io.spares (info maxVecLen).length i fun j => harmless maxVecLen io n j (s.drop 8)
    else if slice (memOf s) 0 2 = ascii "se" then
      if s.length < 11 then true
      else io.spares 4 i fun j => harmless maxVecLen io n j (s.drop 11)
    else if slice (memOf s) 0 2 = ascii "sh" then
      if s.length < 10 then true
      else
        let bytes := bytesCeil (announced (memOf s))
        decide (announced (memOf s) ≤ 0xFFFFFFF8) && decide (bytes ≤ maxVecLen) &&
          if s.length < 10 + 2 * bytes then true
          else io.spares bytes i fun j => harmless maxVecLen io n j (s.drop (10 + 2 * bytes))
    else false

end XvcServer

namespace XvcConn

open JtagDriver

/-- The driver never throws. -/
def Behaviour.Calm (drv : Behaviour) : Prop := ∀ calls, ∃ r, drv calls = .ok r

variable {cfg : Config} {drv : Behaviour} {sup : ℕ} {io : Io}

theorem Behaviour.Calm.after (h : drv.Calm) (calls : List DrvCall) : (drv.after calls).Calm :=
  fun more => h (calls ++ more)

theorem Behaviour.Calm.getinfo (h : drv.Calm) (t : Tx) (maxVecLen : ℕ) :
    ∃ t', t.getinfo drv maxVecLen = (.returned, t') ∧ t'.tl = (info maxVecLen).length := by
  obtain ⟨r, hr⟩ := h (t.calls ++ [.query])
  refine ⟨Tx.print { t with calls := t.calls ++ [.query] } _, ?_, rfl⟩
  simp only [Tx.getinfo, Tx.call, hr]

theorem Behaviour.Calm.settck (h : drv.Calm) (t : Tx) (m : Mem) :
    ∃ t', t.settck drv m = (.returned, t') ∧ t'.tl = 4 := by
  obtain ⟨r, hr⟩ := h (t.calls ++ [.setPeriodNs (packLE 32 (slice m 7 4))])
  simp only [Tx.settck, Tx.call, hr]
  exact ⟨_, rfl, rfl⟩

theorem Behaviour.Calm.sendVectors (h : drv.Calm) (m : Mem) (bytes : ℕ) (t : Tx) (bits off : ℕ) :
    (Tx.sendVectors drv m bytes t bits off).1 = none := by
  obtain ⟨r, hr⟩ := h (t.calls ++ [.sendVectors bits (slice m off (bytesCeil bits))
    (slice m (bytes + off) (bytesCeil bits))])
  simp [Tx.sendVectors, Tx.call, hr]

/-- Calls that never throw leave the chunk loop to its arithmetic. -/
theorem shiftLoop_calm {σ : Type*} {send : σ → ℕ → ℕ → Option Err × σ}
    (hsend : ∀ s bits off, (send s bits off).1 = none) (v rounds off left : ℕ) (s : σ) :
    ∀ e, (shiftLoop send v rounds off left s).1 ≠ .threw e := by
  induction rounds generalizing off left s with
  | zero => simp [shiftLoop]
  | succ rounds ih =>
    intro e
    have hnone := hsend s (bitsSent v left) off
    rw [shiftLoop]
    split_ifs with h0
    · simp
    · cases hcall : send s (bitsSent v left) off with
      | mk err s1 =>
        rw [hcall] at hnone
        subst hnone
        exact ih _ _ _ e

/-- The shift branch returns, unless its byte count has wrapped around. -/
theorem Behaviour.Calm.shift (h : drv.Calm) (t : Tx) {bits : ℕ} (m : Mem) (h32 : bits < 2 ^ 32)
    (hsup : 0 < vecBytes bits → 0 < sup) :
    (t.shift drv sup bits m).1 = if bits ≤ 0xFFFFFFF8 then .returned else .running := by
  have hcalm : ∀ e, (XvcConn.shift (Tx.sendVectors drv m (vecBytes bits)) sup (bits + 1) bits t).1 ≠
      .threw e := shiftLoop_calm (fun s bits off => h.sendVectors _ _ _ _ _) _ _ _ _ _
  have hsig : (XvcConn.shift (Tx.sendVectors drv m (vecBytes bits)) sup (bits + 1) bits t).1 ≠
      .killed := shiftLoop_ne_killed _ _ _ _ _ _
  split_ifs with hle
  · have hrun := Tx.shift_ne_running drv t m hle hsup
    unfold Tx.shift at hrun ⊢
    cases hs : XvcConn.shift (Tx.sendVectors drv m (vecBytes bits)) sup (bits + 1) bits t with
    | mk p t' =>
      rw [hs] at hrun hcalm hsig
      cases p with
      | returned => rfl
      | threw e => exact absurd rfl (hcalm e)
      | killed => exact absurd rfl hsig
      | running => exact absurd rfl hrun
  · have hz : vecLen (vecBytes bits) sup = 0 := by
      have : vecBytes bits = 0 := by
        unfold vecBytes u32
        omega
      rw [this, vecLen, if_neg (by omega)]
    have hret := shiftLoop_zero_ne_returned (Tx.sendVectors drv m (vecBytes bits)) (bits + 1) 0
      bits t (by omega)
    rw [XvcConn.shift, hz] at hcalm hsig
    unfold Tx.shift
    rw [XvcConn.shift, hz]
    cases hs : shiftLoop (Tx.sendVectors drv m (vecBytes bits)) 0 (bits + 1) 0 bits t with
    | mk p t' =>
      rw [hs] at hret hcalm hsig
      cases p with
      | returned => exact absurd rfl hret
      | threw e => exact absurd rfl (hcalm e)
      | killed => exact absurd rfl hsig
      | running => rfl

theorem Tx.shift_tl {t : Tx} {bits : ℕ} {m : Mem} (h : (t.shift drv sup bits m).1 = .returned) :
    (t.shift drv sup bits m).2.tl = vecBytes bits := by
  unfold Tx.shift at h ⊢
  cases hs : XvcConn.shift (Tx.sendVectors drv m (vecBytes bits)) sup (bits + 1) bits t with
  | mk p t' =>
    rw [hs] at h
    cases p with
    | returned => rfl
    | _ => simp at h

/-- How a message at the head of `x` ends, and what that says about the stream. -/
structure Verdict (maxVecLen : ℕ) (io : Io) (n i : ℕ) (x : Plain) (r : Progress × Plain) :
    Prop where
  returned : r.1 = .returned → r.2.2.length < x.2.length ∧
    XvcServer.harmless maxVecLen io (n + 1) i x.2 =
      io.spares r.2.1.tl i fun j => XvcServer.harmless maxVecLen io n j r.2.2
  threw : ∀ e, r.1 = .threw e →
    ((∃ prefx, e = .sysErr prefx) ↔ XvcServer.harmless maxVecLen io (n + 1) i x.2 = true)
  running : r.1 = .running → XvcServer.harmless maxVecLen io (n + 1) i x.2 = false

section Verdict

variable {n i : ℕ} {x : Plain}

theorem Verdict.of_threw {maxVecLen : ℕ} {y : Plain} {e : Err}
    (h : (∃ prefx, e = .sysErr prefx) ↔ XvcServer.harmless maxVecLen io (n + 1) i x.2 = true) :
    Verdict maxVecLen io n i x (.threw e, y) := by
  refine ⟨by simp, ?_, by simp⟩
  intro e' he
  obtain rfl := Progress.threw.inj he
  exact h

theorem Verdict.need {maxVecLen k : ℕ} {f : Plain → Progress × Plain}
    (hshort : x.2.length < k → XvcServer.harmless maxVecLen io (n + 1) i x.2 = true)
    (h : k ≤ x.2.length → Verdict maxVecLen io n i x (f x)) :
    Verdict maxVecLen io n i x (andThen (Plain.need k x) f) := by
  unfold Plain.need
  split_ifs with hk
  · apply Verdict.of_threw
    exact ⟨fun _ => hshort hk, fun _ => ⟨_, rfl⟩⟩
  · exact h (by omega)

theorem Verdict.handler {maxVecLen k : ℕ} {y : Plain} {t : Tx} {r : Progress × Tx}
    (hr : r = (.returned, t)) (hk : (y.2.drop k).length < x.2.length)
    (hs : XvcServer.harmless maxVecLen io (n + 1) i x.2 =
      io.spares t.tl i fun j => XvcServer.harmless maxVecLen io n j (y.2.drop k)) :
    Verdict maxVecLen io n i x (andThen (y.lift r) fun x => (.returned, x.drop k)) := by
  subst hr
  refine ⟨fun _ => ⟨hk, hs⟩, ?_, ?_⟩
  all_goals simp [andThen, Plain.lift]

theorem Behaviour.Calm.shift_message (h : drv.Calm) (hsup : 0 < cfg.maxVecLen → 0 < sup)
    (h10 : 10 ≤ x.2.length)
    (hdef : XvcServer.harmless cfg.maxVecLen io (n + 1) i x.2 =
      (decide (announced (memOf x.2) ≤ 0xFFFFFFF8) &&
        decide (bytesCeil (announced (memOf x.2)) ≤ cfg.maxVecLen) &&
        if x.2.length < 10 + 2 * bytesCeil (announced (memOf x.2)) then true
        else io.spares (bytesCeil (announced (memOf x.2))) i fun j =>
          XvcServer.harmless cfg.maxVecLen io n j
            (x.2.drop (10 + 2 * bytesCeil (announced (memOf x.2)))))) :
    Verdict cfg.maxVecLen io n i x
      (if vecBytes (announced (memOf x.2)) > cfg.maxVecLen then (.threw tooBig, x)
      else andThen (Plain.need (2 * vecBytes (announced (memOf x.2))) (x.drop 10)) fun y =>
        andThen (y.lift (y.1.shift drv sup (announced (memOf x.2)) (memOf y.2))) fun y =>
          (.returned, y.drop (2 * vecBytes (announced (memOf x.2))))) := by
  have h32 := announced_lt (memOf x.2)
  split_ifs with hbig
  · -- the byte count is that of the announced bits unless it wraps to zero
    apply Verdict.of_threw
    have hle : announced (memOf x.2) ≤ 0xFFFFFFF8 := by
      by_contra hcon
      unfold vecBytes u32 at hbig
      omega
    rw [vecBytes_eq hle] at hbig
    rw [hdef, decide_eq_false (by omega : ¬ bytesCeil _ ≤ cfg.maxVecLen)]
    simp [tooBig]
  have hpos : 0 < vecBytes (announced (memOf x.2)) → 0 < sup := fun _ => hsup (by omega)
  by_cases hle : announced (memOf x.2) ≤ 0xFFFFFFF8
  · have hv := vecBytes_eq hle
    rw [decide_eq_true hle, decide_eq_true (by omega : bytesCeil _ ≤ cfg.maxVecLen),
      Bool.true_and, Bool.true_and, ← hv] at hdef
    unfold Plain.need
    split_ifs with hlen
    · apply Verdict.of_threw
      simp only [Plain.drop, List.length_drop] at hlen
      rw [hdef, if_pos (by omega)]
      exact ⟨fun _ => rfl, fun _ => ⟨_, rfl⟩⟩
    · simp only [Plain.drop, List.length_drop] at hlen
      have hret : (x.1.shift drv sup (announced (memOf x.2)) (memOf (x.2.drop 10))).1 =
          .returned := (h.shift _ _ h32 hpos).trans (if_pos hle)
      refine Verdict.handler (t := (x.1.shift drv sup (announced (memOf x.2))
        (memOf (x.2.drop 10))).2) (Prod.ext hret rfl) ?_ ?_
      · simp only [Plain.drop, List.length_drop]
        omega
      · rw [hdef, if_neg (by omega), Tx.shift_tl hret, Plain.drop, List.drop_drop]
  · -- no vector bytes are read, and the shift of a vector of length zero never ends
    have hz : vecBytes (announced (memOf x.2)) = 0 := by
      unfold vecBytes u32
      omega
    rw [decide_eq_false hle, Bool.false_and, Bool.false_and] at hdef
    rw [hz, Plain.need, if_neg (by omega)]
    have hrun : (x.1.shift drv sup _ (memOf (x.2.drop 10))).1 = _ :=
      (h.shift x.1 (memOf (x.2.drop 10)) h32 hpos).trans (if_neg hle)
    simp only [andThen, Plain.drop, Plain.lift]
    cases hs : Tx.shift x.1 drv sup (announced (memOf x.2)) (memOf (x.2.drop 10)) with
    | mk p t =>
      rw [hs] at hrun
      simp only at hrun
      subst hrun
      exact ⟨by simp, by simp, fun _ => hdef⟩

theorem Behaviour.Calm.message (h : drv.Calm) (hsup : 0 < cfg.maxVecLen → 0 < sup) :
    Verdict cfg.maxVecLen io n i x (Plain.message cfg drv sup x) := by
  unfold Plain.message
  apply Verdict.need
  · intro h2
    rw [XvcServer.harmless, if_pos h2]
  intro h2
  have hfull : ¬ x.2.length < 2 := by omega
  split_ifs with hge hse hsh
  · have hdef : XvcServer.harmless cfg.maxVecLen io (n + 1) i x.2 = if x.2.length < 8 then true
        else io.spares (info cfg.maxVecLen).length i fun j =>
          XvcServer.harmless cfg.maxVecLen io n j (x.2.drop 8) := by
      rw [XvcServer.harmless, if_neg hfull, if_pos hge]
    apply Verdict.need
    · intro hlt
      rw [hdef, if_pos hlt]
    · intro h8
      obtain ⟨t, ht, htl⟩ := h.getinfo x.1 cfg.maxVecLen
      refine Verdict.handler ht (by rw [List.length_drop]; omega) ?_
      rw [hdef, if_neg (by omega), htl]
  · have hdef : XvcServer.harmless cfg.maxVecLen io (n + 1) i x.2 = if x.2.length < 11 then true
        else io.spares 4 i fun j => XvcServer.harmless cfg.maxVecLen io n j (x.2.drop 11) := by
      rw [XvcServer.harmless, if_neg hfull, if_neg hge, if_pos hse]
    apply Verdict.need
    · intro hlt
      rw [hdef, if_pos hlt]
    · intro h11
      obtain ⟨t, ht, htl⟩ := h.settck x.1 (memOf x.2)
      refine Verdict.handler ht (by rw [List.length_drop]; omega) ?_
      rw [hdef, if_neg (by omega), htl]
  · have hdef : XvcServer.harmless cfg.maxVecLen io (n + 1) i x.2 = if x.2.length < 10 then true
        else decide (announced (memOf x.2) ≤ 0xFFFFFFF8) &&
          decide (bytesCeil (announced (memOf x.2)) ≤ cfg.maxVecLen) &&
          if x.2.length < 10 + 2 * bytesCeil (announced (memOf x.2)) then true
          else io.spares (bytesCeil (announced (memOf x.2))) i fun j =>
            XvcServer.harmless cfg.maxVecLen io n j
              (x.2.drop (10 + 2 * bytesCeil (announced (memOf x.2)))) := by
      rw [XvcServer.harmless, if_neg hfull, if_neg hge, if_neg hse, if_pos hsh]
    apply Verdict.need
    · intro hlt
      rw [hdef, if_pos hlt]
    · intro h10
      rw [if_neg (by omega)] at hdef
      exact h.shift_message hsup h10 hdef
  · apply Verdict.of_threw
    rw [XvcServer.harmless, if_neg hfull, if_neg hge, if_neg hse, if_neg hsh]
    simp [unsupported]

end Verdict

theorem andThen_frame {σ τ : Type*} (f : σ → τ) {r : Progress × σ} {k : σ → Progress × σ}
    (hk : ∀ s, f (k s).2 = f s) : f (andThen r k).2 = f r.2 := by
  obtain ⟨p, s⟩ := r
  cases p with
  | returned => exact hk s
  | _ => rfl

theorem Conn.fillLoop_nWrites (c : Conn) (io : Io) (k p : ℕ) :
    (c.fillLoop io k p).2.nWrites = c.nWrites := by
  induction k using Nat.strong_induction_on generalizing c p with
  | _ k ih =>
    rw [Conn.fillLoop]
    split_ifs with h0 hgot
    · rfl
    · rfl
    · exact ih _ (by omega) _ _

theorem Conn.fill_nWrites (c : Conn) (io : Io) (n : ℕ) : (c.fill io n).2.nWrites = c.nWrites := by
  have hloop := c.fillLoop_nWrites io (n - c.rl) (c.rp + c.rl)
  unfold Conn.fill
  split_ifs
  · rfl
  cases hr : c.fillLoop io (n - c.rl) (c.rp + c.rl) with
  | mk p c' =>
    rw [hr] at hloop
    cases p <;> exact hloop

variable (cfg drv io sup) in
theorem Conn.message_nWrites (c : Conn) : (c.message cfg drv io sup).2.nWrites = c.nWrites := by
  unfold Conn.message
  refine (andThen_frame Conn.nWrites fun c => ?_).trans (c.fill_nWrites io 2)
  split_ifs
  · refine (andThen_frame Conn.nWrites fun c => ?_).trans (c.fill_nWrites io 8)
    exact andThen_frame Conn.nWrites fun c => rfl
  · refine (andThen_frame Conn.nWrites fun c => ?_).trans (c.fill_nWrites io 11)
    exact andThen_frame Conn.nWrites fun c => rfl
  · refine (andThen_frame Conn.nWrites fun c => ?_).trans (c.fill_nWrites io 10)
    dsimp only
    split_ifs
    · rfl
    refine (andThen_frame Conn.nWrites fun c => ?_).trans ((c.bump 10).fill_nWrites io _)
    exact andThen_frame Conn.nWrites fun c => rfl
  · rfl

theorem Conn.readChunk_nWrites (c : Conn) : (c.readChunk cfg io).2.nWrites = c.nWrites := by
  unfold Conn.readChunk
  split_ifs <;> rfl

theorem Conn.flushLoop_put (c : Conn) (io : Io) (tl p : ℕ) :
    ∃ sent tl', c.flushLoop io tl p = ((io.put tl c.nWrites).1,
      { c with sent := sent, tl := tl', nWrites := (io.put tl c.nWrites).2 }) := by
  induction tl using Nat.strong_induction_on generalizing c p with
  | _ tl ih =>
    rw [Conn.flushLoop, Io.put]
    by_cases h0 : tl = 0
    · exact ⟨c.sent, 0, by simp [h0]⟩
    cases hw : io.writes c.nWrites with
    | takes n =>
      simp only [if_neg h0]
      exact ih (tl - min (n + 1) tl) (by omega) { c with
        sent := c.sent ++ slice c.txb p (min (n + 1) tl)
        nWrites := c.nWrites + 1 } _
    | fails => exact ⟨c.sent, tl, by simp [h0]⟩
    | sigPipe => exact ⟨c.sent, tl, by simp [h0]⟩

theorem Io.put_threw {tl i : ℕ} {e : Err} (h : (io.put tl i).1 = .threw e) : e = sendFailed := by
  induction tl using Nat.strong_induction_on generalizing i with
  | _ tl ih =>
    rw [Io.put] at h
    by_cases h0 : tl = 0
    · simp [h0] at h
    cases hw : io.writes i with
    | takes n =>
      simp only [if_neg h0, hw] at h
      exact ih _ (by omega) h
    | fails =>
      simp only [if_neg h0, hw] at h
      exact (Progress.threw.inj h).symm
    | sigPipe => simp [h0, hw] at h

/-- How a turn of the connection ends, and what that says about the stream. -/
structure Conn.Turned (cfg : Config) (io : Io) (n : ℕ) (c : Conn) (r : Progress × Conn) :
    Prop where
  returned : r.1 = .returned → (r.2.Bounded (2 * cfg.chunk) ∧ r.2.Ready cfg.chunk) ∧
    r.2.pending.length < c.pending.length ∧
    XvcServer.harmless cfg.maxVecLen io (n + 1) c.nWrites c.pending =
      XvcServer.harmless cfg.maxVecLen io n r.2.nWrites r.2.pending
  threw : ∀ e, r.1 = .threw e → ((∃ prefx, e = .sysErr prefx) ↔
    XvcServer.harmless cfg.maxVecLen io (n + 1) c.nWrites c.pending = true)
  lost : r.1 = .killed ∨ r.1 = .running →
    XvcServer.harmless cfg.maxVecLen io (n + 1) c.nWrites c.pending = false

section Turns

variable {n : ℕ} {c : Conn}

theorem Conn.Turned.flush {c' : Conn} (hb : c'.Bounded (2 * cfg.chunk)) (hr : c'.Ready cfg.chunk)
    (hi : c'.nWrites = c.nWrites) (hlen : c'.pending.length < c.pending.length)
    (hs : XvcServer.harmless cfg.maxVecLen io (n + 1) c.nWrites c.pending =
      io.spares c'.tl c.nWrites fun j => XvcServer.harmless cfg.maxVecLen io n j c'.pending) :
    Conn.Turned cfg io n c
      (andThen (c'.flush io) fun c => (.returned, { c with served := c.served + 1 })) := by
  obtain ⟨sent, tl, hflush⟩ := c'.flushLoop_put io c'.tl 0
  rw [Conn.flush, hflush, hi]
  unfold Io.spares at hs
  have hthrew : ∀ e, (io.put c'.tl c.nWrites).1 = .threw e → e = sendFailed :=
    fun e => Io.put_threw
  cases hput : io.put c'.tl c.nWrites with
  | mk p j =>
    rw [hput] at hs hthrew
    cases p with
    | returned => exact ⟨fun _ => ⟨⟨hb, hr⟩, hlen, hs⟩, by simp [andThen], by simp [andThen]⟩
    | threw e =>
      refine ⟨by simp [andThen], ?_, by simp [andThen]⟩
      intro e' he
      obtain rfl := Progress.threw.inj he
      obtain rfl := hthrew _ rfl
      exact ⟨fun _ => hs, fun _ => ⟨_, rfl⟩⟩
    | _ => exact ⟨by simp [andThen], by simp [andThen], fun _ => hs⟩

theorem Behaviour.Calm.turn (h : drv.Calm) (hsup : 0 < cfg.maxVecLen → 0 < sup)
    (hb : c.Bounded (2 * cfg.chunk)) (hr : c.Ready cfg.chunk) :
    Conn.Turned cfg io n c (c.turn cfg drv io sup) := by
  have hread := c.readChunk_sim cfg io hb hr
  have hwrites : (c.readChunk cfg io).2.nWrites = c.nWrites := c.readChunk_nWrites
  unfold Conn.turn
  cases hchunk : c.readChunk cfg io with
  | mk p c1 =>
    rw [hchunk] at hread hwrites
    obtain ⟨hp, -, hb1, hgo⟩ := hread
    simp only at hp hwrites
    subst hp
    unfold Plain.need at hgo ⊢
    split_ifs at hgo ⊢ with hempty
    · -- the client has closed
      refine ⟨by simp [andThen], ?_, by simp [andThen]⟩
      intro e he
      obtain rfl := Progress.threw.inj he
      simp only at hempty
      refine ⟨fun _ => ?_, fun _ => ⟨_, rfl⟩⟩
      rw [XvcServer.harmless, if_pos (by omega)]
    obtain ⟨hpend, hr1⟩ := hgo rfl
    simp only at hpend hb1
    change Conn.Turned cfg io n c (andThen (c1.message cfg drv io sup) fun c =>
      andThen (c.flush io) fun c => (.returned, { c with served := c.served + 1 }))
    have hsim := c1.message_sim cfg drv io sup hb1 hr1
    have hi : (c1.message cfg drv io sup).2.nWrites = c1.nWrites :=
      Conn.message_nWrites cfg drv sup io c1
    have hv : Verdict cfg.maxVecLen io n c.nWrites (c1.toTx, c1.pending)
        (Plain.message cfg drv sup (c1.toTx, c1.pending)) := h.message hsup
    have hsig : (Plain.message cfg drv sup (c1.toTx, c1.pending)).1 ≠ .killed :=
      Plain.message_ne_killed cfg drv _
    cases hm : Plain.message cfg drv sup (c1.toTx, c1.pending) with
    | mk q y =>
      rw [hm] at hsim hv hsig
      cases hc : c1.message cfg drv io sup with
      | mk p c2 =>
        rw [hc] at hsim hi
        obtain ⟨hq, htx, hb2, hgo⟩ := hsim
        simp only at hq htx hi hb2 hgo
        subst hq
        cases p with
        | returned =>
          obtain ⟨hpend2, hr2⟩ := hgo rfl
          obtain ⟨hshort, hs⟩ := hv.returned rfl
          simp only [← htx, ← hpend2] at hshort hs
          exact Conn.Turned.flush hb2 hr2 (hi.trans hwrites) (hpend ▸ hshort) (hpend ▸ hs)
        | threw e =>
          refine ⟨by simp [andThen], fun e' he => ?_, by simp [andThen]⟩
          rw [← hpend]
          exact hv.threw e' he
        | killed => exact absurd rfl hsig
        | running =>
          refine ⟨by simp [andThen], by simp [andThen], fun _ => ?_⟩
          rw [← hpend]
          exact hv.running rfl

variable (io) in
theorem Behaviour.Calm.turns (h : drv.Calm) (hsup : 0 < cfg.maxVecLen → 0 < sup)
    (hb : c.Bounded (2 * cfg.chunk)) (hr : c.Ready cfg.chunk) (hlen : c.pending.length ≤ n) :
    (∀ m e, (Conn.turns cfg drv io sup m c).1 = .threw e → ((∃ prefx, e = .sysErr prefx) ↔
      XvcServer.harmless cfg.maxVecLen io n c.nWrites c.pending = true)) ∧
    (XvcServer.harmless cfg.maxVecLen io n c.nWrites c.pending = true → ∀ m > n, ∃ prefx,
      (Conn.turns cfg drv io sup m c).1 = .threw (.sysErr prefx)) := by
  induction n generalizing c with
  | zero =>
    have hend : ∀ m, (Conn.turns cfg drv io sup (m + 1) c).1 = .threw readFailed := by
      intro m
      have hread := (c.readChunk_sim cfg io hb hr).progress
      rw [Plain.need, if_pos (by simp only; omega)] at hread
      rw [Conn.turns, Conn.turn]
      cases hc : c.readChunk cfg io with
      | mk p c1 =>
        rw [hc] at hread
        obtain rfl : p = .threw readFailed := hread
        rfl
    refine ⟨?_, ?_⟩
    · intro m e he
      cases m with
      | zero => simp [Conn.turns] at he
      | succ m =>
        rw [hend] at he
        obtain rfl := Progress.threw.inj he
        exact ⟨fun _ => rfl, fun _ => ⟨_, rfl⟩⟩
    · intro _ m hm
      obtain ⟨m, rfl⟩ := Nat.exists_eq_succ_of_ne_zero (by omega : m ≠ 0)
      exact ⟨_, hend m⟩
  | succ n ih =>
    have hv : Conn.Turned cfg io n c (c.turn cfg drv io sup) := h.turn hsup hb hr
    cases ht : c.turn cfg drv io sup with
    | mk p c' =>
      rw [ht] at hv
      have hstep : ∀ m, Conn.turns cfg drv io sup (m + 1) c =
          andThen (p, c') (Conn.turns cfg drv io sup m) := fun m => by rw [Conn.turns, ht]
      have hno : ∀ e, p = .killed ∨ p = .running → ∀ m,
          (Conn.turns cfg drv io sup m c).1 ≠ .threw e := by
        rintro e hp m
        cases m with
        | zero => simp [Conn.turns]
        | succ m =>
          rw [hstep]
          rcases hp with rfl | rfl <;> simp [andThen]
      cases p with
      | returned =>
        obtain ⟨⟨hb', hr'⟩, hshort, heq⟩ := hv.returned rfl
        simp only at hb' hr' hshort heq
        obtain ⟨hthrew, hends⟩ := ih hb' hr' (by omega)
        rw [heq]
        refine ⟨?_, ?_⟩
        · intro m e he
          cases m with
          | zero => simp [Conn.turns] at he
          | succ m =>
            rw [hstep] at he
            exact hthrew m e he
        · intro hok m hm
          obtain ⟨m, rfl⟩ := Nat.exists_eq_succ_of_ne_zero (by omega : m ≠ 0)
          rw [hstep]
          exact hends hok m (by omega)
      | threw e =>
        have hiff := hv.threw e rfl
        refine ⟨?_, ?_⟩
        · intro m e' he
          cases m with
          | zero => simp [Conn.turns] at he
          | succ m =>
            rw [hstep] at he
            obtain rfl := Progress.threw.inj he
            exact hiff
        · intro hok m hm
          obtain ⟨m, rfl⟩ := Nat.exists_eq_succ_of_ne_zero (by omega : m ≠ 0)
          obtain ⟨prefx, rfl⟩ := hiff.mpr hok
          exact ⟨prefx, by rw [hstep]; rfl⟩
      | killed =>
        have hbad := hv.lost (Or.inl rfl)
        exact ⟨fun m e he => absurd he (hno e (Or.inl rfl) m),
          fun hok => absurd (hok.symm.trans hbad) (by simp)⟩
      | running =>
        have hbad := hv.lost (Or.inr rfl)
        exact ⟨fun m e he => absurd he (hno e (Or.inr rfl) m),
          fun hok => absurd (hok.symm.trans hbad) (by simp)⟩

end Turns

theorem Conn.turns_ne_returned (m : ℕ) (c : Conn) :
    (Conn.turns cfg drv io sup m c).1 ≠ .returned := by
  induction m generalizing c with
  | zero => simp [Conn.turns]
  | succ m ih =>
    rw [Conn.turns]
    cases ht : c.turn cfg drv io sup with
    | mk p c' => cases p <;> simp [andThen, ih]

theorem Behaviour.Calm.allocBufs (h : drv.Calm) :
    ∃ sup t, Tx.start.allocBufs cfg drv = (.ok sup, t) ∧ (0 < cfg.maxVecLen → 0 < sup) := by
  obtain ⟨q, hq⟩ := h [.query]
  obtain ⟨v, hv⟩ := h [.query, .getMaxVectorSize]
  refine ⟨supVecLen cfg.maxVecLen q.1 v.1, ⟨[.query, .getMaxVectorSize], fun _ => 0, 0, [], 0⟩,
    ?_, supVecLen_pos⟩
  simp [Tx.allocBufs, Tx.call, Tx.start, hq, hv]

variable (cfg) in
theorem Behaviour.Calm.run (h : drv.Calm) (io : Io) (stream : List Byte) :
    (∀ n, (XvcConn.run cfg drv io stream n).1 ≠ .returned) ∧
    (∀ n e, (XvcConn.run cfg drv io stream n).1 = .threw e → ((∃ prefx, e = .sysErr prefx) ↔
      XvcServer.harmless cfg.maxVecLen io stream.length 0 stream = true)) ∧
    (XvcServer.harmless cfg.maxVecLen io stream.length 0 stream = true →
      ∀ n > stream.length, ∃ prefx, (XvcConn.run cfg drv io stream n).1 =
        .threw (.sysErr prefx)) := by
  obtain ⟨sup, t, halloc, hsup⟩ : ∃ sup t, Tx.start.allocBufs cfg drv = (.ok sup, t) ∧
    (0 < cfg.maxVecLen → 0 < sup) := h.allocBufs
  have hrun : ∀ n, XvcConn.run cfg drv io stream n =
      Conn.turns cfg drv io sup n (Conn.start t stream) := by
    intro n
    rw [XvcConn.run, halloc]
  have hpend : (Conn.start t stream).pending = stream := by simp [Conn.pending, Conn.start, slice]
  have hbounded : (Conn.start t stream).Bounded (2 * cfg.chunk) := by
    simp [Conn.Bounded, Conn.start]
  have hready : (Conn.start t stream).Ready cfg.chunk := ⟨by simp [Conn.start], fun _ => rfl⟩
  obtain ⟨hthrew, hends⟩ := h.turns io hsup hbounded hready (congrArg List.length hpend).le
  rw [hpend] at hthrew hends
  simp only [hrun]
  exact ⟨fun n => Conn.turns_ne_returned n _, hthrew, hends⟩

end XvcConn

namespace XvcServer

open XvcConn JtagDriver

/-- With a driver that never throws the server comes to wait for the next client after all those
that come, if and only if they are harmless: an unsupported message or one that is too big throws
`ProtoErr`, for which there is no handler, a request of 0xFFFFFFF9 bits or more never ends, and a
reply to a client that has closed raises SIGPIPE. -/
theorem serves_all_iff (cfg : Config) (drv : Behaviour) (h : drv.Calm) (clients : List Client) :
    (∃ n, run false cfg n drv clients = .accepting) ↔ ∀ client ∈ clients,
      harmless cfg.maxVecLen client.io client.stream.length 0 client.stream = true := by
  constructor
  · rintro ⟨n, hn⟩
    induction clients generalizing drv with
    | nil => simp
    | cons client clients ih =>
      obtain ⟨hret, hthrew, -⟩ := h.run cfg client.io client.stream
      rw [run] at hn
      cases hrun : XvcConn.run cfg drv client.io client.stream n with
      | mk p c =>
        rw [hrun] at hn
        cases p with
        | returned => exact absurd (congrArg Prod.fst hrun) (hret n)
        | killed => simp at hn
        | running => simp at hn
        | threw e =>
          have hiff := hthrew n e (congrArg Prod.fst hrun)
          cases e with
          | sysErr prefx =>
            have hok := hiff.mp ⟨prefx, rfl⟩
            have hrest := ih _ (h.after c.calls) (by simpa using hn)
            intro other hother
            rcases List.mem_cons.mp hother with rfl | hother
            · exact hok
            · exact hrest other hother
          | _ => simp at hn
  · intro hall
    have hrun : ∀ n, (∀ client ∈ clients, client.stream.length < n) →
        run false cfg n drv clients = .accepting := by
      intro n hn
      induction clients generalizing drv with
      | nil => rfl
      | cons client clients ih =>
        obtain ⟨-, -, hends⟩ := h.run cfg client.io client.stream
        obtain ⟨prefx, he⟩ := hends (hall client (by simp)) n (hn client (by simp))
        rw [run]
        cases hrun : XvcConn.run cfg drv client.io client.stream n with
        | mk p c =>
          rw [hrun] at he
          simp only at he
          subst he
          exact ih _ (h.after c.calls) (fun c hc => hall c (by simp [hc]))
            fun c hc => hn c (by simp [hc])
    refine ⟨(clients.map fun client => client.stream.length).sum + 1, hrun _ ?_⟩
    intro client hc
    exact Nat.lt_succ_of_le (List.single_le_sum (by simp) _ (List.mem_map_of_mem hc))

/-- A client that asks for its ten bits, one that breaks off within its request, and one that is
not there any more when its second reply is written, which is noticed without a signal. -/
theorem serves_three_clients :
    ∃ n, run false ⟨32768, by decide⟩ n (fun _ => .ok (64, [0xff, 0x03]))
      [⟨ascii "shift:" ++ [10, 0, 0, 0, 0x5a, 0x01, 0xc3, 0x02], ⟨fun _ => 0, fun _ => .takes 2⟩⟩,
        ⟨ascii "getinfo:sett", ⟨fun _ => 1000, fun _ => .takes 1000⟩⟩,
        ⟨ascii "getinfo:getinfo:",
          ⟨fun _ => 1000, fun i => if i = 0 then .takes 1000 else .fails⟩⟩] =
      .accepting :=
  (serves_all_iff _ _ (fun _ => ⟨_, rfl⟩) _).mpr (by decide +kernel)

/-- Two octets end the server for all clients to come. -/
theorem unsupported_message_ends_server :
    run false ⟨32768, by decide⟩ 1 (fun _ => .ok (64, []))
        [⟨ascii "quit:", ⟨fun _ => 1000, fun _ => .takes 1000⟩⟩] = .died unsupported ∧
      ¬ ∃ n, run false ⟨32768, by decide⟩ n (fun _ => .ok (64, []))
        [⟨ascii "quit:", ⟨fun _ => 1000, fun _ => .takes 1000⟩⟩] = .accepting := by
  have hdied : ∀ n, run false ⟨32768, by decide⟩ (n + 1) (fun _ => .ok (64, []))
      [⟨ascii "quit:", ⟨fun _ => 1000, fun _ => .takes 1000⟩⟩] = .died unsupported := fun _ => rfl
  refine ⟨hdied 0, ?_⟩
  rintro ⟨n, hn⟩
  cases n with
  | zero => exact absurd hn (by decide)
  | succ n => exact absurd ((hdied n).symm.trans hn) (by decide)

/-- So does a client that asks twice and closes without reading the replies. -/
example : run false ⟨32768, by decide⟩ 2 (fun _ => .ok (64, []))
    [⟨ascii "getinfo:getinfo:",
      ⟨fun _ => 1000, fun i => if i = 0 then .takes 1000 else .sigPipe⟩⟩] = .killed := by
  decide +kernel

end XvcServer

end XvcSupport
