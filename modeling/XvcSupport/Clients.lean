import XvcSupport.LossyService
import XvcSupport.Server

namespace XvcSupport

namespace XvcConn

open JtagDriver AxisToJtag

theorem Behaviour.Runs.after {σ : Type*} {step : σ → DrvCall → Except Err (ℕ × List Byte) × σ}
    {drv : Behaviour} {s : σ} (h : drv.Runs step s) (calls : List DrvCall) :
    (drv.after calls).Runs step (afterCalls step s calls) := by
  intro more c
  rw [Behaviour.after, ← List.append_assoc, h, afterCalls_append]

/-- Not all of a message has come. -/
def BrokenOff (maxVecLen : ℕ) (rest : List Byte) : Prop :=
  ∃ msg : Message, msg.Fits maxVecLen ∧ rest <+: msg.octets ∧ rest ≠ msg.octets

/-- What a client sends before it closes, and how TCP cuts it. -/
structure Visit where
  msgs : List Message
  rest : List Byte
  io : Io

namespace Visit

/-- The server takes the messages, no more than a part of one follows them, and the client reads
its replies before it closes. -/
structure Fits (maxVecLen : ℕ) (v : Visit) : Prop where
  msgs : ∀ msg ∈ v.msgs, msg.Fits maxVecLen
  rest : BrokenOff maxVecLen v.rest
  sends : v.io.Sends

def client (v : Visit) : Client := ⟨v.msgs.flatMap Message.octets ++ v.rest, v.io⟩

def bits (v : Visit) : List (Bool × Bool) := v.msgs.flatMap Message.bits

def edges (v : Visit) : List Edge := v.msgs.flatMap Message.edges

theorem rises_edges (visits : List Visit) : rises (visits.flatMap edges) = visits.flatMap bits := by
  induction visits with
  | nil => rfl
  | cons v visits ih =>
    rw [List.flatMap_cons, rises_append, ih, List.flatMap_cons]
    exact congrArg (· ++ visits.flatMap bits) (XvcConn.rises_edges v.msgs)

end Visit

/-- What one client after the other gets. -/
def transcripts (maxVecLen : ℕ) (periodNs : BitVec 32) (tap : Tap) :
    List Edge → List Visit → List (List Byte)
  | _, [] => []
  | hist, v :: visits => replies maxVecLen periodNs tap hist v.msgs ::
      transcripts maxVecLen periodNs tap (hist ++ v.edges) visits

section Turn

variable {cfg : Config} {drv : Behaviour} {sup : ℕ}

theorem slice_memOf_prefix {xs ys : List Byte} (h : xs <+: ys) {p n : ℕ}
    (hlen : p + n ≤ xs.length) :
    slice (memOf xs) p n = slice (memOf ys) p n := by
  obtain ⟨zs, rfl⟩ := h
  rw [slice_memOf_append zs hlen]
  have hself : slice (memOf (xs ++ [])) p n = _ := slice_memOf_append [] hlen
  rwa [List.append_nil] at hself

variable (drv sup) in
theorem Plain.turn_brokenOff {rest : List Byte} (h : BrokenOff cfg.maxVecLen rest) (t : Tx) :
    ∃ s, Plain.turn cfg drv sup (t, rest) = (.threw readFailed, (t, s)) := by
  obtain ⟨msg, hfits, hbegin, hne⟩ := h
  have hlt : rest.length < msg.octets.length := by
    apply lt_of_le_of_ne hbegin.length_le
    intro heq
    exact hne (hbegin.eq_of_length heq)
  by_cases h1 : rest.length < 1
  · exact ⟨rest, by simp only [Plain.turn, Plain.need, if_pos h1, andThen]⟩
  by_cases h2 : rest.length < 2
  · exact ⟨rest, by
      simp only [Plain.turn, Plain.message, Plain.need, if_neg h1, if_pos h2, andThen]⟩
  have hhead : slice (memOf rest) 0 2 = slice (memOf msg.octets) 0 2 :=
    slice_memOf_prefix hbegin (by omega)
  cases msg with
  | getinfo =>
    have hlen : Message.getinfo.octets.length = 8 := by simp [Message.octets, ascii]
    have hge : slice (memOf Message.getinfo.octets) 0 2 = ascii "ge" := by decide +kernel
    refine ⟨rest, ?_⟩
    simp only [Plain.turn, Plain.message, Plain.need, if_neg h1, if_neg h2, andThen, hhead, hge,
      if_true, if_pos (show rest.length < 8 by omega)]
  | settck period =>
    have hlen : (Message.settck period).octets.length = 11 := by simp [Message.octets, ascii]
    have hse : slice (memOf (Message.settck period).octets) 0 2 = ascii "se" := by
      rfl
    have hge : ascii "se" ≠ ascii "ge" := by simp [ascii]
    refine ⟨rest, ?_⟩
    simp only [Plain.turn, Plain.message, Plain.need, if_neg h1, if_neg h2, andThen, hhead, hse,
      hge, if_false, if_true, if_pos (show rest.length < 11 by omega)]
  | shift bits tms tdi =>
    obtain ⟨hbits, hmax⟩ := hfits
    have hlen : (Message.shift bits tms tdi).octets.length = 10 + 2 * bytesCeil bits := by
      simp [Message.octets, ascii]
      omega
    have hsh : slice (memOf (Message.shift bits tms tdi).octets) 0 2 = ascii "sh" := by
      rfl
    have hge : ascii "sh" ≠ ascii "ge" := by simp [ascii]
    have hse : ascii "sh" ≠ ascii "se" := by simp [ascii]
    by_cases h10 : rest.length < 10
    · refine ⟨rest, ?_⟩
      simp only [Plain.turn, Plain.message, Plain.need, if_neg h1, if_neg h2, andThen, hhead, hsh,
        hge, hse, if_false, if_true, if_pos h10]
    -- the header has come, but not both vectors
    have hcount : announced (memOf rest) = bits := by
      have hfull := announced_octets [] tms tdi (by omega : bits < 2 ^ 32)
      rw [List.append_nil] at hfull
      rw [announced, slice_memOf_prefix hbegin (by omega)]
      exact hfull
    have hbytes := vecBytes_eq hbits
    have hbig : ¬ bytesCeil bits > cfg.maxVecLen := by
      unfold bytesCeil
      omega
    have hshort : (rest.drop 10).length < 2 * bytesCeil bits := by
      rw [List.length_drop]
      omega
    refine ⟨rest.drop 10, ?_⟩
    simp only [Plain.turn, Plain.message, Plain.need, Plain.drop, if_neg h1, if_neg h2, andThen,
      hhead, hsh, hge, hse, if_false, if_true, if_neg h10, hcount, hbytes, hbig, if_pos hshort]

end Turn

section Visit

variable {tap : Tap} {σ : Type} {B : Backend tap σ} {s0 : σ} {hist : List Edge} {cfg : Config}
  {drv : Behaviour}

theorem visit_serves (hdrv : drv.Runs B.step s0) (hfresh : B.Fresh s0 hist)
    (hchunk : min cfg.maxVecLen (B.supVecLen cfg.maxVecLen) ≤ B.limit) {v : Visit}
    (hv : v.Fits cfg.maxVecLen) {n : ℕ} (hn : v.msgs.length < n) :
    let r := run cfg drv v.client.io v.client.stream n
    (∀ h, ¬ B.Stopped (afterCalls B.step s0 r.2.calls) h) →
    r.1 = .threw readFailed ∧ r.2.sent = replies cfg.maxVecLen B.periodNs tap hist v.msgs ∧
      B.Serves (afterCalls B.step s0 r.2.calls) (hist ++ v.edges) := by
  intro r hgoes
  obtain ⟨k, rfl⟩ := Nat.exists_eq_add_of_lt hn
  rcases run_upto hdrv hfresh hchunk hv.sends v.msgs hv.msgs v.rest (k + 1) with
    ⟨t, ⟨hend, htx⟩, -, hsent, hserves⟩ | ⟨e, done, -, hcut⟩
  · obtain ⟨s, hturn⟩ := Plain.turn_brokenOff drv (B.supVecLen cfg.maxVecLen) hv.rest t
    rw [Plain.turns, hturn] at hend htx
    have hr : r.2.toTx = t := htx
    refine ⟨hend, ?_, ?_⟩
    · rw [hr, hsent]
    · have hport : B.Serves (r.2.toTx.port B s0) (hist ++ v.edges) := by rwa [hr]
      exact hport
  · obtain ⟨part, -, hstopped⟩ := hcut.stopped
    exact absurd hstopped (hgoes _)

end Visit

end XvcConn

namespace XvcServer

open XvcConn JtagDriver AxisToJtag

/-- The connections that `run` makes. -/
def connections (once : Bool) (cfg : Config) (n : ℕ) : Behaviour → List Client → List Conn
  | _, [] => []
  | drv, client :: clients =>
    let r := XvcConn.run cfg drv client.io client.stream n
    r.2 :: match r.1 with
      | .threw (.sysErr _) | .returned =>
        if once then [] else connections once cfg n (drv.after r.2.calls) clients
      | _ => []

section Clients

variable {tap : Tap} {σ : Type} {B : Backend tap σ} {cfg : Config}

/-- What holds of the driver in the end held before its calls. -/
theorem afterCalls_back {P : σ → Prop} (hback : ∀ s c, P (B.step s c).2 → P s) {s : σ}
    (calls : List DrvCall) (h : P (afterCalls B.step s calls)) : P s := by
  induction calls generalizing s with
  | nil => exact h
  | cons c calls ih => exact hback s c (ih h)

/-- What the server does with a driver that carries vectors, if `P` holds of the driver in the end,
as it cannot once the driver has stopped. -/
theorem serves_visits {P : σ → Prop} (hback : ∀ s c, P (B.step s c).2 → P s)
    (hgoes : ∀ s hist, B.Stopped s hist → ¬ P s)
    (hchunk : min cfg.maxVecLen (B.supVecLen cfg.maxVecLen) ≤ B.limit) {n : ℕ}
    (visits : List Visit) (hfits : ∀ v ∈ visits, v.Fits cfg.maxVecLen)
    (hn : ∀ v ∈ visits, v.msgs.length < n) {drv : Behaviour} {s0 : σ} {hist : List Edge}
    (hdrv : drv.Runs B.step s0) (hfresh : B.Fresh s0 hist) :
    let conns := connections false cfg n drv (visits.map Visit.client)
    P (afterCalls B.step s0 (conns.flatMap fun c => c.calls)) →
    run false cfg n drv (visits.map Visit.client) = .accepting ∧
      conns.map (fun c => c.sent) = transcripts cfg.maxVecLen B.periodNs tap hist visits ∧
      B.Fresh (afterCalls B.step s0 (conns.flatMap fun c => c.calls))
        (hist ++ visits.flatMap Visit.edges) := by
  induction visits generalizing drv s0 hist with
  | nil =>
    intro conns _
    exact ⟨rfl, rfl, by simpa [conns, connections, afterCalls] using hfresh⟩
  | cons v visits ih =>
    intro conns hend
    have hserved := visit_serves hdrv hfresh hchunk (hfits v (by simp)) (hn v (by simp))
    cases hrun : XvcConn.run cfg drv v.client.io v.client.stream n with
    | mk p c =>
      rw [hrun] at hserved
      obtain ⟨more, hmore⟩ : ∃ more, conns = c :: more := by
        simp only [conns, List.map_cons, connections, hrun]
        exact ⟨_, rfl⟩
      have hmid : P (afterCalls B.step s0 c.calls) := by
        rw [hmore, List.flatMap_cons, afterCalls_append] at hend
        exact afterCalls_back hback _ hend
      obtain ⟨hclosed, hsent, hserves⟩ := hserved fun h hstopped => hgoes _ h hstopped hmid
      obtain rfl : p = .threw readFailed := hclosed
      have hconns : conns = c ::
          connections false cfg n (drv.after c.calls) (visits.map Visit.client) := by
        simp only [conns, List.map_cons, connections, hrun, readFailed]
        rfl
      rw [hconns, List.flatMap_cons, afterCalls_append] at hend
      obtain ⟨haccepting, htranscripts, hfresh'⟩ := ih
        (fun v' hv' => hfits v' (List.mem_cons_of_mem _ hv'))
        (fun v' hv' => hn v' (List.mem_cons_of_mem _ hv')) (hdrv.after c.calls) (B.again hserves)
        hend
      refine ⟨?_, ?_, ?_⟩
      · rw [List.map_cons, run, hrun]
        exact haccepting
      · rw [hconns, List.map_cons, htranscripts, transcripts]
        exact congrArg (· :: _) hsent
      · rw [hconns, List.flatMap_cons, List.flatMap_cons, ← List.append_assoc, afterCalls_append]
        exact hfresh'

end Clients

section Lossy

variable {g : Generics} {a : ℕ} {fate : ℕ → Delivery}

end Lossy

end XvcServer

end XvcSupport
