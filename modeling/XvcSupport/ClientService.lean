import XvcSupport.Programs
import XvcSupport.Stack
import XvcSupport.BridgeTarget
import XvcSupport.XvcClient

namespace XvcSupport.XvcClient

open JtagTapIR (Generics)
open JtagTapFsm (TapState)
open Jtag2BSCAN
open XvcConn JtagDriver
open AxisToJtag (Fw Tap afterAll edgesOf rises rises_edgesOf response fourOctets)

/-- `int.to_bytes(nbytes, 'little')` of an integer that fits. -/
def toBytes (v nbytes : ℕ) : List Byte :=
  (List.range nbytes).map fun k => BitVec.ofNat 8 (v >>> (8 * k))

/-- `int.from_bytes(b, 'little', signed=False)`. -/
def fromBytes (b : List Byte) : ℕ := Nat.ofDigits 256 (b.map BitVec.toNat)

theorem memBit_toBytes {v n i : ℕ} (h : i < 8 * n) :
    memBit (memOf (toBytes v n)) i = v.testBit i := by
  have hq : i / 8 < n := by omega
  have hm : i % 8 < 8 := by omega
  have hs : 8 * (i / 8) + i % 8 = i := by omega
  rw [memBit, memOf, List.getD_eq_getElem _ _ (by simpa [toBytes] using hq)]
  simp only [toBytes, List.getElem_map, List.getElem_range, BitVec.getLsbD_ofNat, hm, decide_true,
    Bool.true_and, Nat.testBit_shiftRight, hs]

theorem testBit_fromBytes (b : List Byte) (i : ℕ) :
    (fromBytes b).testBit i = memBit (memOf b) i := by
  induction b generalizing i with
  | nil => simp [fromBytes, memBit, memOf]
  | cons x b ih =>
    have hx : x.toNat < 2 ^ 8 := x.isLt
    have hcons : fromBytes (x :: b) = 2 ^ 8 * fromBytes b + x.toNat := by
      rw [fromBytes, List.map_cons, Nat.ofDigits_cons, ← fromBytes]
      simp [Nat.add_comm]
    rw [hcons, Nat.testBit_two_pow_mul_add _ hx]
    split_ifs with hi
    · simp [memBit, memOf, Nat.div_eq_of_lt hi, Nat.mod_eq_of_lt hi, BitVec.testBit_toNat]
    · obtain ⟨j, rfl⟩ := Nat.exists_eq_add_of_le (not_lt.mp hi)
      rw [Nat.add_sub_cancel_left, ih]
      have hq : (8 + j) / 8 = j / 8 + 1 := by omega
      have hm : (8 + j) % 8 = j % 8 := by omega
      simp [memBit, memOf, hq, hm]

variable {L : ℕ} (g : Generics L) {user : User}

theorem fromBytes_response (hist : List AxisToJtag.Edge) (tms tdi n : ℕ) :
    fromBytes (octetsOfBits (response (bridge g user) hist
      ((List.range n).map fun i => (tms.testBit i, tdi.testBit i)))) =
      samples g user tms tdi (withUser user hist) n := by
  apply Nat.eq_of_testBit_eq
  intro i
  rw [testBit_fromBytes, memBit_octetsOfBits, response_bridge]
  by_cases hi : i < n
  · rw [List.getD_eq_getElem _ _ (by simpa using hi)]
    simp
  · rw [List.getD_eq_default _ _ (by simpa using hi), Nat.testBit_lt_two_pow]
    exact lt_of_lt_of_le samples_lt (Nat.pow_le_pow_right (by decide) (not_lt.mp hi))

/-- What `sendVecs` is called with. -/
structure Vecs where
  tms : ℕ
  tdi : ℕ
  nbits : ℕ

namespace Program

def sendVecs (tms tdi nbits : ℕ) : Prog Vecs ℕ ℕ := .put ⟨tms, tdi, nbits⟩

def resetToIdle : Prog Vecs ℕ Unit := do
  let _ ← sendVecs 0b011111 0 6

def selIR : Prog Vecs ℕ Unit := do
  let _ ← sendVecs 0b0011 0 4

def selDR : Prog Vecs ℕ Unit := do
  let _ ← sendVecs 0b001 0 3

def shift (regin reglen : ℕ) (update : Bool) : Prog Vecs ℕ ℕ := do
  if update then
    if reglen = 0 then .fail "negative shift count"
    else
      let tdo ← sendVecs (3 <<< (reglen - 1)) regin (reglen + 2)
      return tdo &&& (1 <<< reglen - 1)
  else sendVecs 0 regin reglen

def getID : Prog Vecs ℕ ℕ := do
  resetToIdle
  selDR
  let myId ← shift 0 32 false
  let _ ← shift myId 32 true
  return myId

def getIRLength (log2 : ℕ → ℕ) (iLen : Option ℕ) : Prog Vecs ℕ ℕ := do
  resetToIdle
  match iLen with
  | some n => return n
  | none =>
    let lmax := 1024
    let ones := 1 <<< lmax - 1
    selIR
    let _ ← shift ones lmax false
    let tdo ← shift 0 lmax true
    return log2 (tdo + 1)

variable (user) (maxv : ℤ)

def ideal : Prog.Handler Vecs ℕ (List Edge) := fun q =>
  XvcClient.sendVecs g user maxv q.tms q.tdi q.nbits

variable {g user maxv}

@[simp] theorem run_sendVecs (tms tdi nbits : ℕ) :
    (sendVecs tms tdi nbits).run (ideal g user maxv) =
      XvcClient.sendVecs g user maxv tms tdi nbits :=
  Prog.run_put _ _

@[simp] theorem run_shift (regin reglen : ℕ) (update : Bool) :
    (shift regin reglen update).run (ideal g user maxv) =
      XvcClient.shift g user maxv regin reglen update := by
  unfold shift XvcClient.shift
  split_ifs
  · rfl
  · simp
  · simp

@[simp] theorem run_resetToIdle :
    resetToIdle.run (ideal g user maxv) = XvcClient.resetToIdle g user maxv := by
  simp [resetToIdle, XvcClient.resetToIdle]

@[simp] theorem run_selIR :
    selIR.run (ideal g user maxv) = XvcClient.selIR g user maxv := by
  simp [selIR, XvcClient.selIR]

@[simp] theorem run_selDR :
    selDR.run (ideal g user maxv) = XvcClient.selDR g user maxv := by
  simp [selDR, XvcClient.selDR]

theorem run_getID : getID.run (ideal g user maxv) = XvcClient.getID g user maxv := by
  simp [getID, XvcClient.getID]

theorem run_getIRLength (log2 : ℕ → ℕ) (iLen : Option ℕ) :
    (getIRLength log2 iLen).run (ideal g user maxv) =
      XvcClient.getIRLength g user maxv log2 iLen := by
  cases iLen with
  | some n => simp [getIRLength, XvcClient.getIRLength]
  | none => simp [getIRLength, XvcClient.getIRLength]

/-- Vectors that fit their octets. -/
def Fit (q : Vecs) : Prop := q.tms < 256 ^ bytesCeil q.nbits ∧ q.tdi < 256 ^ bytesCeil q.nbits

/-- An answer with as many bits as the question. -/
def Sized (q : Vecs) (tdo : ℕ) : Prop := tdo < 2 ^ q.nbits

theorem fit_of_lt {tms tdi nbits : ℕ} (htms : tms < 2 ^ nbits) (htdi : tdi < 2 ^ nbits) :
    Fit ⟨tms, tdi, nbits⟩ := by
  have hle : 2 ^ nbits ≤ 256 ^ bytesCeil nbits := by
    rw [show 256 = 2 ^ 8 from rfl, ← pow_mul]
    apply Nat.pow_le_pow_right (by decide)
    unfold bytesCeil
    omega
  exact ⟨htms.trans_le hle, htdi.trans_le hle⟩

theorem asks_sendVecs {P : ℕ → Prop} {tms tdi nbits : ℕ} (htms : tms < 2 ^ nbits)
    (htdi : tdi < 2 ^ nbits) (h : ∀ tdo < 2 ^ nbits, P tdo) :
    (sendVecs tms tdi nbits).Asks Fit Sized P :=
  Prog.asks_put (fit_of_lt htms htdi) h

theorem asks_shift {P : ℕ → Prop} {regin reglen : ℕ} (update : Bool) (h : regin < 2 ^ reglen)
    (hP : ∀ tdo < 2 ^ reglen, P tdo) : (shift regin reglen update).Asks Fit Sized P := by
  unfold shift
  split_ifs with hu h0
  · trivial
  · have htms : 3 <<< (reglen - 1) < 2 ^ (reglen + 2) := by
      rw [Nat.shiftLeft_eq, show reglen + 2 = reglen - 1 + 3 by omega, pow_add]
      have := Nat.two_pow_pos (reglen - 1)
      omega
    have htdi : regin < 2 ^ (reglen + 2) :=
      h.trans (Nat.pow_lt_pow_right (by decide) (by omega))
    refine Prog.Asks.bind (asks_sendVecs htms htdi fun tdo _ => hP _ ?_)
    rw [Nat.one_shiftLeft, Nat.and_two_pow_sub_one_eq_mod]
    exact Nat.mod_lt _ (Nat.two_pow_pos reglen)
  · exact asks_sendVecs (Nat.two_pow_pos reglen) h hP

theorem asks_resetToIdle {P : Unit → Prop} (h : P ()) : resetToIdle.Asks Fit Sized P :=
  Prog.Asks.bind (asks_sendVecs (by decide) (by decide) fun _ _ => Prog.asks_pure h)

theorem asks_selIR {P : Unit → Prop} (h : P ()) : selIR.Asks Fit Sized P :=
  Prog.Asks.bind (asks_sendVecs (by decide) (by decide) fun _ _ => Prog.asks_pure h)

theorem asks_selDR {P : Unit → Prop} (h : P ()) : selDR.Asks Fit Sized P :=
  Prog.Asks.bind (asks_sendVecs (by decide) (by decide) fun _ _ => Prog.asks_pure h)

theorem asks_getID : getID.Asks Fit Sized fun _ => True := by
  refine Prog.Asks.bind (asks_resetToIdle (Prog.Asks.bind (asks_selDR (Prog.Asks.bind ?_))))
  refine asks_shift false (by decide) fun myId hmyId => Prog.Asks.bind ?_
  exact asks_shift true hmyId fun _ _ => Prog.asks_pure trivial

theorem ones_lt (n : ℕ) : 1 <<< n - 1 < 2 ^ n := by
  rw [Nat.one_shiftLeft]
  exact Nat.sub_lt (Nat.two_pow_pos n) one_pos

theorem asks_getIRLength (log2 : ℕ → ℕ) (iLen : Option ℕ) :
    (getIRLength log2 iLen).Asks Fit Sized fun _ => True := by
  refine Prog.Asks.bind (asks_resetToIdle ?_)
  cases iLen with
  | some n => exact Prog.asks_pure trivial
  | none =>
    generalize 1024 = lmax
    refine Prog.Asks.bind (asks_selIR (Prog.Asks.bind ?_))
    refine asks_shift false (ones_lt lmax) fun _ _ => Prog.Asks.bind ?_
    exact asks_shift true (Nat.two_pow_pos lmax) fun _ _ => Prog.asks_pure trivial

end Program

theorem vectorBits_toBytes (tms tdi n : ℕ) :
    vectorBits (memOf (toBytes tms (bytesCeil n))) (memOf (toBytes tdi (bytesCeil n))) n =
      (List.range n).map fun i => (tms.testBit i, tdi.testBit i) := by
  apply List.map_congr_left
  intro i hi
  have hlt : i < 8 * bytesCeil n := by
    have := List.mem_range.mp hi
    unfold bytesCeil
    omega
  rw [memBit_toBytes hlt, memBit_toBytes hlt]

/-- A server in front of the target `tap`: its driver, which has not been queried yet, with the
bits that the TAP has seen, its option `-M` and what the kernel makes of its stream. -/
structure Server (tap : Tap) where
  State : Type
  backend : Backend tap State
  start : State
  seen : List (Bool × Bool)
  cfg : Config
  io : Io
  reliable : backend.Reliable
  fresh : backend.Fresh start (edgesOf seen)
  chunk_le : min cfg.maxVecLen (backend.supVecLen cfg.maxVecLen) ≤ backend.limit
  sends : io.Sends
  maxVecLen_le : cfg.maxVecLen ≤ 0xFFFFFFF8

/-- A connected client: `maxv_`, the messages that it has sent, and the segments of their replies
that it has not read. -/
structure Socket where
  maxv : ℤ
  msgs : List Message
  left : List (List Byte)

namespace Server

variable {tap : Tap} (srv : Server tap) (msgs : List Message)

def conn : Progress × Conn :=
  run srv.cfg (behaviour srv.backend.step srv.start) srv.io (msgs.flatMap Message.octets ++ [])
    msgs.length

def sent : List Byte := (srv.conn msgs).2.sent

/-- The driver and what is behind it. -/
def port : srv.State := (srv.conn msgs).2.toTx.port srv.backend srv.start

def edges : List AxisToJtag.Edge := edgesOf (srv.seen ++ msgs.flatMap Message.bits)

/-- What the server sends when a message has followed the others. -/
def reply (msg : Message) : List Byte := (srv.sent (msgs ++ [msg])).drop (srv.sent msgs).length

variable (cuts : List Message → (bs : List Byte) → Cut bs)

def segments (msg : Message) : List (List Byte) := (cuts msgs (srv.reply msgs msg)).segs

/-- `__init__`, up to `getMaxVectorBits`. -/
def connect : Option Socket :=
  (getMaxVectorBits none (srv.segments [] cuts .getinfo)).map fun (maxv, left) =>
    ⟨maxv, [.getinfo], left⟩

/-- `sendVecs` over the server's connection. -/
def sendVecs : Prog.Handler Vecs ℕ Socket := fun q c =>
  if q.nbits > c.maxv then
    .error ("Vectors larger than " ++ toString c.maxv ++ " not supported")
  else
    let nbytes := bytesCeil q.nbits
    if 256 ^ nbytes ≤ q.tms ∨ 256 ^ nbytes ≤ q.tdi ∨ 256 ^ 4 ≤ q.nbits then
      .error "int too big to convert"
    else
      let obuf :=
        Message.shift q.nbits (memOf (toBytes q.tms nbytes)) (memOf (toBytes q.tdi nbytes))
      match recvVec nbytes (c.left ++ srv.segments c.msgs cuts obuf) with
      | none => .error "Connection is dead"
      | some (ibuf, left) => .ok (fromBytes ibuf, ⟨c.maxv, c.msgs ++ [obuf], left⟩)

variable {srv msgs}

theorem edges_eq : srv.edges msgs = edgesOf srv.seen ++ msgs.flatMap Message.edges := by
  rw [edges, AxisToJtag.edgesOf_append]
  congr 1
  induction msgs with
  | nil => rfl
  | cons msg msgs ih =>
    rw [List.flatMap_cons, AxisToJtag.edgesOf_append, ih, List.flatMap_cons, Message.edges]

theorem keeps (hfits : ∀ msg ∈ msgs, msg.Fits srv.cfg.maxVecLen) :
    srv.sent msgs = replies srv.cfg.maxVecLen srv.backend.periodNs tap (edgesOf srv.seen) msgs ∧
      srv.backend.Serves (srv.port msgs) (srv.edges msgs) := by
  obtain ⟨-, -, hsent, hserves⟩ := run_serves (behaviour_runs srv.start)
    srv.fresh srv.chunk_le srv.sends msgs hfits [] fun _ => srv.reliable _ _
  rw [edges_eq]
  exact ⟨hsent, hserves⟩

theorem reply_eq {msg : Message} (hfits : ∀ m ∈ msgs ++ [msg], m.Fits srv.cfg.maxVecLen) :
    srv.reply msgs msg =
      msg.reply srv.cfg.maxVecLen srv.backend.periodNs tap (srv.edges msgs) := by
  have hfits' : ∀ m ∈ msgs, m.Fits srv.cfg.maxVecLen := fun m hm =>
    hfits m (List.mem_append_left _ hm)
  rw [reply, (keeps hfits).1, replies_snoc, ← (keeps hfits').1, List.drop_left, ← edges_eq]

theorem connect_eq (cuts : List Message → (bs : List Byte) → Cut bs)
    (hread : (cuts [] (ascii (info srv.cfg.maxVecLen))).segs.dropLast.flatten.length < 10) :
    srv.connect cuts = some ⟨srv.cfg.maxVecLen, [.getinfo], []⟩ := by
  have hreply : srv.reply [] .getinfo = ascii (info srv.cfg.maxVecLen) :=
    reply_eq (by simp [Message.Fits])
  have hlt := srv.cfg.maxVecLen_lt
  rw [connect, segments, hreply, getMaxVectorBits_cut (by omega) _ hread]
  rfl

end Server

variable {g}

/-- The ideal link has seen the edges that the server is to show to the bridge, and the client has
read the replies to its messages. -/
structure Linked (srv : Server (bridge g user)) (es : List Edge) (c : Socket) : Prop where
  edges : es = withUser user (srv.edges c.msgs)
  fits : ∀ msg ∈ c.msgs, msg.Fits srv.cfg.maxVecLen
  maxv : c.maxv = srv.cfg.maxVecLen
  left : c.left = []

section Agree

variable (srv : Server (bridge g user)) (cuts : List Message → (bs : List Byte) → Cut bs)
  {es : List Edge} {c : Socket}

theorem Linked.sendVecs {q : Vecs} (hq : Program.Fit q) (h : Linked srv es c) :
    Prog.Agree (Linked srv) (Program.ideal g user srv.cfg.maxVecLen q es)
        (srv.sendVecs cuts q c) ∧
      ∀ tdo es', Program.ideal g user srv.cfg.maxVecLen q es = .ok (tdo, es') →
        Program.Sized q tdo := by
  obtain ⟨tms, tdi, n⟩ := q
  obtain ⟨htms, htdi⟩ := hq
  by_cases hmaxv : (n : ℤ) > srv.cfg.maxVecLen
  · have hideal : Program.ideal g user srv.cfg.maxVecLen ⟨tms, tdi, n⟩ es =
        .error ("Vectors larger than " ++ toString (srv.cfg.maxVecLen : ℤ) ++
          " not supported") := if_pos hmaxv
    have hserver : srv.sendVecs cuts ⟨tms, tdi, n⟩ c =
        .error ("Vectors larger than " ++ toString (srv.cfg.maxVecLen : ℤ) ++
          " not supported") := by
      rw [Server.sendVecs, h.maxv, if_pos hmaxv]
    refine ⟨Or.inl ⟨_, hideal, hserver⟩, ?_⟩
    intro tdo es' hok
    rw [hideal] at hok
    cases hok
  · have hideal : Program.ideal g user srv.cfg.maxVecLen ⟨tms, tdi, n⟩ es =
        .ok (samples g user tms tdi es n, clocks user tms tdi es n) :=
      sendVecs_eq (not_lt.mp hmaxv) es
    have hlimit := srv.maxVecLen_le
    have hfit : ¬ (256 ^ bytesCeil n ≤ tms ∨ 256 ^ bytesCeil n ≤ tdi ∨ 256 ^ 4 ≤ n) := by
      rintro (hle | hle | hle)
      · exact absurd htms (not_lt.mpr hle)
      · exact absurd htdi (not_lt.mpr hle)
      · omega
    set obuf := Message.shift n (memOf (toBytes tms (bytesCeil n)))
      (memOf (toBytes tdi (bytesCeil n))) with hobuf
    have hfits : ∀ msg ∈ c.msgs ++ [obuf], msg.Fits srv.cfg.maxVecLen := by
      intro msg hmsg
      rcases List.mem_append.mp hmsg with hmsg | hmsg
      · exact h.fits msg hmsg
      · obtain rfl := List.mem_singleton.mp hmsg
        exact ⟨by omega, by omega⟩
    have hbits : obuf.bits = (List.range n).map fun i => (tms.testBit i, tdi.testBit i) :=
      vectorBits_toBytes tms tdi n
    have hedges : srv.edges (c.msgs ++ [obuf]) = srv.edges c.msgs ++ edgesOf obuf.bits := by
      simp [Server.edges, ← AxisToJtag.edgesOf_append]
    have hreply : srv.reply c.msgs obuf =
        octetsOfBits (response (bridge g user) (srv.edges c.msgs) obuf.bits) :=
      Server.reply_eq hfits
    have hlen : (srv.reply c.msgs obuf).length = bytesCeil n := by
      rw [hreply, octetsOfBits_length, AxisToJtag.response_length, hbits, List.length_map,
        List.length_range]
    -- nothing is left of earlier replies, so the client reads the one to this message
    have hrecv : recvVec (bytesCeil n) (c.left ++ srv.segments c.msgs cuts obuf) =
        some (srv.reply c.msgs obuf, []) := by
      rw [h.left, List.nil_append, ← hlen]
      exact recvVec_cut _
    have hserver : srv.sendVecs cuts ⟨tms, tdi, n⟩ c =
        .ok (samples g user tms tdi (withUser user (srv.edges c.msgs)) n,
          ⟨c.maxv, c.msgs ++ [obuf], []⟩) := by
      simp only [Server.sendVecs, h.maxv, if_neg hmaxv, if_neg hfit, ← hobuf, hrecv, hreply, hbits,
        fromBytes_response]
    rw [← h.edges] at hserver
    have hlinked : Linked srv (clocks user tms tdi es n) ⟨c.maxv, c.msgs ++ [obuf], []⟩ := by
      refine ⟨?_, hfits, h.maxv, rfl⟩
      rw [hedges, hbits, withUser_bits, ← h.edges]
    refine ⟨Or.inr ⟨_, _, _, hideal, hserver, hlinked⟩, ?_⟩
    intro tdo es' hok
    obtain ⟨rfl, -⟩ := Prod.mk.inj (Except.ok.inj (hideal.symm.trans hok))
    exact samples_lt

theorem programs_agree {α : Type} {p : Prog Vecs ℕ α}
    (hp : p.Asks Program.Fit Program.Sized fun _ => True) (h : Linked srv es c) :
    Prog.Agree (Linked srv) (p.run (Program.ideal g user srv.cfg.maxVecLen) es)
      (p.run (srv.sendVecs cuts) c) :=
  Prog.run_agree (fun _ _ _ hq h => h.sendVecs srv cuts hq) hp h

theorem result_over_server {α : Type} {p : Prog Vecs ℕ α}
    (hp : p.Asks Program.Fit Program.Sized fun _ => True) (h : Linked srv es c) {a : α}
    {es' : List Edge} (hideal : p.run (Program.ideal g user srv.cfg.maxVecLen) es = .ok (a, es')) :
    ∃ c', p.run (srv.sendVecs cuts) c = .ok (a, c') ∧ Linked srv es' c' := by
  obtain ⟨err, herr, -⟩ | ⟨a', es'', c', hok, hserver, hlinked⟩ := programs_agree srv cuts hp h
  · rw [hideal] at herr
    cases herr
  · obtain ⟨rfl, rfl⟩ := Prod.mk.inj (Except.ok.inj (hideal.symm.trans hok))
    exact ⟨c', hserver, hlinked⟩

end Agree

/-- The TAP behind a client's connection has seen these edges, and the client has read all that
the server has sent. -/
def Server.Saw (srv : Server (bridge g user)) (es : List Edge) (c : Socket) : Prop :=
  c.left = [] ∧ ∃ hist, srv.backend.Serves (srv.port c.msgs) hist ∧ es = withUser user hist

theorem Linked.saw {srv : Server (bridge g user)} {es : List Edge} {c : Socket}
    (h : Linked srv es c) : srv.Saw es c :=
  ⟨h.left, _, (Server.keeps h.fits).2, h.edges⟩

/-- What a client gets that has read all replies: the length of the bridge's instruction register,
its IDCODE, both with the TAP in Run-Test/Idle afterwards, and from every program of `sendVecs`
calls whose vectors fit what the ideal link returns, with the same edges at the TAP. -/
structure Identifies (g : Generics L) (user : User) (srv : Server (bridge g user))
    (cuts : List Message → (bs : List Byte) → Cut bs) (log2 : ℕ → ℕ) (c : Socket) : Prop where
  irLength : ∃ c', (Program.getIRLength log2 none).run (srv.sendVecs cuts) c = .ok (L, c') ∧
    ∃ es, srv.Saw es c' ∧ tapState es = .runTestIdle
  id : ∃ c', Program.getID.run (srv.sendVecs cuts) c = .ok (g.idcodeVal.toNat, c') ∧
    ∃ es, srv.Saw es c' ∧ tapState es = .runTestIdle
  programs : ∀ (α : Type) (p : Prog Vecs ℕ α),
    p.Asks Program.Fit Program.Sized (fun _ => True) →
      Prog.Agree srv.Saw
        (p.run (Program.ideal g user srv.cfg.maxVecLen) (withUser user (srv.edges c.msgs)))
        (p.run (srv.sendVecs cuts) c)

/-- A client that connects, and identifies the bridge with whatever messages after the first. -/
structure Connects (g : Generics L) (user : User) (srv : Server (bridge g user))
    (cuts : List Message → (bs : List Byte) → Cut bs) (log2 : ℕ → ℕ) : Prop where
  connect : srv.connect cuts = some ⟨srv.cfg.maxVecLen, [.getinfo], []⟩
  identifies : ∀ msgs : List Message, (∀ msg ∈ msgs, msg.Fits srv.cfg.maxVecLen) →
    Identifies g user srv cuts log2 ⟨srv.cfg.maxVecLen, .getinfo :: msgs, []⟩

/-- The Python client over any driver that carries vectors, if the reply to its first message is
read whole. -/
theorem client_over_backend (hL : 2 ≤ L) (hL' : L ≤ 1024) (g : Generics L)
    (hcodes : g.regIdcode ≠ g.regUser) (user : User) (srv : Server (bridge g user))
    (hmaxv : 1026 ≤ srv.cfg.maxVecLen) {log2 : ℕ → ℕ} (hlog : ∀ k, log2 (2 ^ k) = k)
    (cuts : List Message → (bs : List Byte) → Cut bs)
    (hread : (cuts [] (ascii (info srv.cfg.maxVecLen))).segs.dropLast.flatten.length < 10) :
    Connects g user srv cuts log2 := by
  refine ⟨Server.connect_eq cuts hread, fun msgs hfits => ?_⟩
  set c : Socket := ⟨srv.cfg.maxVecLen, .getinfo :: msgs, []⟩ with hc
  have hlow : Low (withUser user (srv.edges c.msgs)) := low_withUser _
  have hmaxv' : (1026 : ℤ) ≤ srv.cfg.maxVecLen := by exact_mod_cast hmaxv
  have hlinked : Linked srv (withUser user (srv.edges c.msgs)) c := by
    refine ⟨rfl, fun msg hmsg => ?_, rfl, rfl⟩
    rcases List.mem_cons.mp hmsg with rfl | hmsg
    · trivial
    · exact hfits msg hmsg
  refine ⟨?_, ?_, ?_⟩
  · obtain ⟨es', hrun, hidle⟩ : ∃ es', XvcClient.getIRLength g user srv.cfg.maxVecLen log2 none
        (withUser user (srv.edges c.msgs)) = .ok (L, es') ∧ tapState es' = .runTestIdle :=
      getIRLength_eq hmaxv' hL hL' hlog hlow
    rw [← Program.run_getIRLength] at hrun
    obtain ⟨c', hserver, hlinked'⟩ :=
      result_over_server srv cuts (Program.asks_getIRLength log2 none) hlinked hrun
    exact ⟨c', hserver, es', hlinked'.saw, hidle⟩
  · obtain ⟨es', hrun, hidle⟩ : ∃ es', XvcClient.getID g user srv.cfg.maxVecLen
        (withUser user (srv.edges c.msgs)) = .ok (g.idcodeVal.toNat, es') ∧
          tapState es' = .runTestIdle := getID_eq hmaxv' hcodes hlow
    rw [← Program.run_getID] at hrun
    obtain ⟨c', hserver, hlinked'⟩ :=
      result_over_server srv cuts Program.asks_getID hlinked hrun
    exact ⟨c', hserver, es', hlinked'.saw, hidle⟩
  · intro α p hp
    obtain ⟨err, hx, hy⟩ | ⟨a, es', c', hx, hy, hlinked'⟩ := programs_agree srv cuts hp hlinked
    · exact Or.inl ⟨err, hx, hy⟩
    · exact Or.inr ⟨a, es', c', hx, hy, hlinked'.saw⟩

/-- Every reply comes in one segment. -/
def atOnce (_ : List Message) (bs : List Byte) : Cut bs where
  segs := if bs = [] then [] else [bs]
  ne_nil := by
    intro seg hseg
    split_ifs at hseg with h
    · cases hseg
    · rwa [List.mem_singleton.mp hseg]
  flatten := by
    split_ifs with h
    · exact h.symm
    · exact List.flatten_singleton

theorem atOnce_read (msgs : List Message) (bs : List Byte) :
    (atOnce msgs bs).segs.dropLast.flatten.length < 10 := by
  simp only [atOnce]
  split_ifs <;> simp

section Firmware

variable {f : AxisToJtag.Generics} {a : ℕ}

theorem afterAll_rises (tap : Tap) (frames : List (List (BitVec f.W))) :
    (afterAll tap (Fw.init f.W) frames).hist =
      edgesOf (rises (afterAll tap (Fw.init f.W) frames).hist) := by
  obtain ⟨bits, hbits⟩ := AxisToJtag.afterAll_periods tap (Fw.init f.W) frames
  have hinit : (afterAll tap (Fw.init f.W) frames).hist = edgesOf bits := hbits
  rw [hinit, rises_edgesOf]

/-- The server in front of the firmware, whose driver may be asked for the parameters. -/
def Server.ofFirmware (ha : f.W = 2 ^ a) (tap : Tap) (kind : DrvKind)
    (cvtPerNs : Header → BitVec 32) (s0 : Port (List (List (BitVec f.W))))
    (hask : Askable tap s0) (cfg : Config)
    (hfit : Fitting f kind s0.link.drv.bufSz (longest f kind cfg)) (io : Io) (hio : io.Sends)
    (hmax : cfg.maxVecLen ≤ 0xFFFFFFF8) : Server tap where
  State := Port (List (List (BitVec f.W)))
  backend := firmwareBackend kind cvtPerNs ha tap hfit
  start := s0
  seen := rises (afterAll tap (Fw.init f.W) s0.link.net).hist
  cfg := cfg
  io := io
  reliable := firmwareBackend_reliable ha hfit
  fresh := ⟨hask, le_rfl, afterAll_rises tap s0.link.net⟩
  chunk_le := le_rfl
  sends := hio
  maxVecLen_le := hmax

end Firmware

end XvcSupport.XvcClient
