import XvcSupport.RegisterService
import XvcSupport.TmemInterfaces
import XvcSupport.ClientService

namespace XvcSupport.JtagDriverTmemFifo

open AxisToJtag Tmem2BSCANWrapper RegisterDriver JtagDriver
open XvcConn (Port Message Config Io run behaviour behaviour_runs afterCalls Shows
  blockBackend blockBackend_reliable run_serves rises_edges blockLongest octetwise octetwise_sends)

section Buffers

variable {σ ε : Type} {regs : Registers σ}

theorem sameBuffers_xfer32sdes {tms tdi w : BitVec 32} {nbits fuel : ℕ} {t t' : Transfer σ}
    (h : (xfer32sdes regs tms tdi nbits fuel t : Run ε (BitVec 32 × Transfer σ)) =
      Run.returned (w, t')) : SameBuffers t t' := by
  simp only [xfer32sdes] at h
  set t₁ := o32 regs SDES_CSR_IDX _ _ with ht₁
  have hstart : SameBuffers t t₁ := rfl
  rcases hpoll : (poll regs SDES_CSR_IDX (fun w => w &&& SDES_CSR_BSY = 0) fuel t₁ :
      Run ε (BitVec 32 × Transfer σ)) with _ | _ | ⟨w', t₂⟩
  · rw [hpoll] at h
    cases h
  · rw [hpoll] at h
    cases h
  · rw [hpoll] at h
    obtain rfl := (Prod.mk.inj (returned_inj h)).2
    exact (hstart.trans (sameBuffers_poll hpoll)).trans rfl

theorem sameBuffers_bits32bb (logBscn : Bool) (tms tdi : BitVec 32) (n : ℕ)
    (m csr tdo : BitVec 32) (t : Transfer σ) :
    SameBuffers t (bits32bb regs logBscn tms tdi n m csr tdo t).2 := by
  induction n generalizing m csr tdo t with
  | zero => rfl
  | succ n ih =>
    rw [bits32bb]
    refine SameBuffers.trans ?_ (ih _ _ _ _)
    cases logBscn
    · rfl
    · rfl

theorem sameBuffers_xfer32bb (logBscn : Bool) (tms tdi : BitVec 32) (nbits : ℕ)
    (t : Transfer σ) : SameBuffers t (xfer32bb regs logBscn tms tdi nbits t).2 := by
  have hread : SameBuffers t (i32 regs SDES_CSR_IDX t).2 := rfl
  exact hread.trans (sameBuffers_bits32bb ..)

end Buffers

variable {cs : BitVec 2} {tap : Tap} {m : Master cs} {s : Board} {fuel : ℕ} {bitBang : Bool}

theorem Resting.lowered_eq (hr : Resting s) : lowered s = s.hist := by
  rw [lowered, tck_eq hr.ena, hr.idle.tck, if_neg Bool.false_ne_true]

/-- The interface in use can take words. -/
def Ready (bitBang : Bool) (s : Board) : Prop := if bitBang then BitBang s else Resting s

theorem Call.sampled (c : Call) (tap : Tap) (h : List Edge) :
    Sampled True (c.tdo tap h) c.nbits (response tap h c.bits) := by
  have hlen : (response tap h c.bits).length = c.nbits := by simp
  constructor
  · intro i hi
    rw [c.getLsbD_tdo (hi.trans_le c.le), List.getD_eq_getElem _ _ (by rwa [hlen])]
    simp [response, hi]
  · intro _ i hi
    by_cases h32 : i < 32
    · rw [c.getLsbD_tdo h32, decide_eq_false (by omega), Bool.false_and]
    · exact BitVec.getLsbD_of_ge _ _ (by omega)

variable (m tap bitBang) in
theorem shifts_board (logBscn : Bool) (hfuel : enoughReads ≤ fuel) :
    Shifts (tapTarget tap) (fun b : Bus => lowered b.board) (fun _ b => Ready bitBang b.board) True
      (shift (m.registers tap) bitBang logBscn fuel) := by
  intro tms tdi nbits l t hpos hl hready
  let c : Call := ⟨tms, tdi, l, by omega, by omega⟩
  have htarget : (tapTarget tap).shift (wordBits tms tdi l) (lowered t.dev.board) =
      (response tap (lowered t.dev.board) c.bits, lowered t.dev.board ++ edgesOf c.bits) :=
    shift_tapTarget tap _ _
  have hsampled := c.sampled tap (lowered t.dev.board)
  rw [htarget]
  cases bitBang with
  | true =>
    obtain ⟨t', hcall, hbang, hedges⟩ := xfer32bb_spec tap m c hready logBscn
    have hsame : SameBuffers t (xfer32bb (m.registers tap) logBscn tms tdi l t).2 :=
      sameBuffers_xfer32bb ..
    rw [show xfer32bb (m.registers tap) logBscn tms tdi l t = _ from hcall] at hsame
    refine ⟨_, t'.dev, ?_, hbang, hedges, hsampled⟩
    rw [← (hsame : t' = { t with dev := t'.dev })]
    exact congrArg Run.returned hcall
  | false =>
    have hr : Resting t.dev.board := hready
    obtain ⟨t', hcall, hr', hhist⟩ := xfer32sdes_spec tap c m (ε := Fault) hr hfuel
    have hsame : t' = { t with dev := t'.dev } := sameBuffers_xfer32sdes hcall
    rw [← hr.lowered_eq] at hcall hhist
    refine ⟨_, t'.dev, ?_, hr', hr'.lowered_eq.trans hhist, hsampled⟩
    rw [← hsame]
    exact hcall

/-- The board with the interface in use. -/
def boardBlock (m : Master cs) (tap : Tap) (bitBang logBscn : Bool) (hfuel : enoughReads ≤ fuel) :
    Block tap Bus where
  start := id
  shift := shift (m.registers tap) bitBang logBscn fuel
  view b := lowered b.board
  ready b := Ready bitBang b.board
  shifts := shifts_board tap m bitBang logBscn hfuel
  start_buffers _ := ⟨rfl, rfl⟩
  start_ready _ h := h
  start_view _ := rfl

section Init

variable {σ : Type} (regs : Registers σ) (bitBang logBscn : Bool)

/-- `xfer` for a board with a serializer. -/
def xferBoard (code : ℕ → Header) (fuel : ℕ) : XferMethod (Transfer σ) :=
  overRegisters id (shift regs bitBang logBscn fuel) code fuel

/-- `init()`, for a board with a serializer. -/
def init (cvtPerNs : Header → BitVec 32) (code : ℕ → Header) (fuel : ℕ) (s : Port (Transfer σ)) :
    Run Err (Port (Transfer σ)) := do
  let t ← reset regs bitBang fuel s.link.net
  match queryVia (xferBoard regs bitBang logBscn code fuel) { s.link with net := t } with
  | (.error e, _) => Run.threw e
  | (.ok hdr, l) =>
    if l.drv.wordSize ≠ tmemWrdSiz then
      Run.threw (.runtimeErr
        "ERROR: firmware misconfigured -- FIFO word size /= JTAG stream word size")
    else Run.returned ⟨l, cvtPerNs hdr⟩

end Init

variable (m tap bitBang) in
theorem init_spec (logBscn : Bool) (cvtPerNs : Header → BitVec 32) (code : ℕ → Header)
    (hfuel : enoughReads ≤ fuel) {s : Port (Transfer Bus)} (hws : s.link.drv.wordSize = 4)
    {limit : ℕ} (hbuf : msgOctets 4 (8 * limit) ≤ s.link.drv.bufSz)
    (hi : Quiescent s.link.net.dev.board) :
    ∃ s', init (m.registers tap) bitBang logBscn cvtPerNs code fuel s = Run.returned s' ∧
      Shows (boardBlock m tap bitBang logBscn hfuel) limit s'
        (lowered s.link.net.dev.board ++ edgesOf resetCall.bits) := by
  obtain ⟨t, hreset, hi', hena, hlow⟩ : ∃ t,
      (reset (m.registers tap) bitBang fuel s.link.net : Run Err (Transfer Bus)) =
        Run.returned t ∧ Quiescent t.dev.board ∧ t.dev.board.bb_ena = bitBang ∧
        lowered t.dev.board = lowered s.link.net.dev.board ++ edgesOf resetCall.bits :=
    reset_spec hi bitBang hfuel
  have hready : Ready bitBang t.dev.board := by
    cases bitBang with
    | true => exact ⟨hi'.running, hena⟩
    | false => exact ⟨hi', hena⟩
  have hshows : Shows (boardBlock m tap bitBang logBscn hfuel) limit
      ⟨{ s.link with net := t }, s.periodNs⟩ _ := ⟨hws, hbuf, hready, hlow⟩
  obtain ⟨l, hquery, -, hkept⟩ := hshows.query code fuel
  have hkept' := hkept (cvtPerNs blockReply)
  refine ⟨⟨l, cvtPerNs blockReply⟩, ?_, hkept'⟩
  have hquery' : queryVia (xferBoard (m.registers tap) bitBang logBscn code fuel)
      { s.link with net := t } = _ := hquery
  have hsize : ¬ l.drv.wordSize ≠ tmemWrdSiz := not_not.mpr hkept'.wordSize
  simp only [init, hreset, returned_bind, hquery', if_neg hsize]

/-- A connection over the TMEM board, once `init` is through, serves its client as well as one over
the firmware for streams, if the driver's buffer has room for its messages: the replies are those of
a TAP that was reset, and then clocked with the vectors of all shifts so far, and TCK has risen with
these bits and with no others.  Which of the two interfaces is used does not show, nor when the bus
comes to the board. -/
theorem board_serves (m : Master cs) (tap : Tap) (bitBang logBscn : Bool) (csrVal : ℕ)
    (cvtPerNs : Header → BitVec 32) (code : ℕ → Header) (hfuel : 2 ^ 20 < fuel)
    {s : Port (Transfer Bus)} (hws : s.link.drv.wordSize = 4)
    (hi : Quiescent s.link.net.dev.board) (cfg : Config)
    (hchunk : blockLongest (.tmem csrVal) cfg ≤ 2 ^ 17)
    (hbuf : msgOctets 4 (8 * blockLongest (.tmem csrVal) cfg) ≤ s.link.drv.bufSz) (io : Io)
    (hio : io.Sends) (msgs : List Message) (hfits : ∀ msg ∈ msgs, msg.Fits cfg.maxVecLen)
    (rest : List Byte) :
    ∃ s0, init (m.registers tap) bitBang logBscn cvtPerNs code fuel s = Run.returned s0 ∧
      let hist := lowered s.link.net.dev.board ++ edgesOf resetCall.bits
      let drv := Port.step (xferBoard (m.registers tap) bitBang logBscn code fuel) (.tmem csrVal)
        cvtPerNs
      let r := run cfg (behaviour drv s0) io (msgs.flatMap Message.octets ++ rest) msgs.length
      r.1 = .running ∧ r.2.served = msgs.length ∧
        r.2.sent = XvcConn.replies cfg.maxVecLen (cvtPerNs blockReply) tap hist msgs ∧
        rises (afterCalls drv s0 r.2.calls).link.net.dev.board.hist =
          rises s.link.net.dev.board.hist ++ resetCall.bits ++ msgs.flatMap Message.bits := by
  have hreads : enoughReads ≤ fuel := (by decide : enoughReads ≤ 2 ^ 20).trans hfuel.le
  obtain ⟨s0, hinit, hshows⟩ := init_spec tap m bitBang logBscn cvtPerNs code hreads hws hbuf hi
  refine ⟨s0, hinit, ?_⟩
  intro hist drv r
  set block := boardBlock m tap bitBang logBscn hreads
  obtain ⟨hrunning, hserved, hsent, hserves, -⟩ :=
    run_serves (B := blockBackend block (.tmem csrVal) cvtPerNs code hfuel hchunk)
      (behaviour_runs s0) hshows le_rfl hio msgs hfits rest
      fun _ => blockBackend_reliable block (.tmem csrVal) cvtPerNs code hfuel hchunk _ _
  refine ⟨hrunning, hserved, hsent, ?_⟩
  have hend : lowered (afterCalls drv s0 r.2.calls).link.net.dev.board =
      hist ++ msgs.flatMap Message.edges := hserves.hist
  rw [← rises_lowered, hend, rises_append, rises_edges, rises_append, rises_edgesOf,
    rises_lowered]

/-- A driver just created, for a board after power-up. -/
def created : Port (Transfer Bus) where
  link := { drv := Drv.new (fun _ => 0) 7, tdo := fun _ => 0, net := powerUp }
  periodNs := 0

/-- TDI comes back through the pins, bit by bit. -/
theorem board_serves_shorted :
    ∃ s0, init (oneIdle.registers shorted) true true (fun _ => 0) (fun _ => 0) (2 ^ 20 + 1)
        created = Run.returned s0 ∧
      (run ⟨32768, by decide⟩ (behaviour (Port.step (xferBoard (oneIdle.registers shorted) true true
        (fun _ => 0) (2 ^ 20 + 1)) (.tmem 0x11000000) fun _ => 0) s0)
        octetwise ([.settck 100, .shift 10 (memOf [0x5a, 0x01])
          (memOf [0xc3, 0x02])].flatMap Message.octets ++ []) 2).2.sent =
          [100, 0, 0, 0, 0xc3, 0x02] := by
  obtain ⟨s0, hinit, -, -, hsent, -⟩ := board_serves oneIdle shorted true true 0x11000000
    (fun _ => 0) (fun _ => 0) (by decide : 2 ^ 20 < 2 ^ 20 + 1) (s := created) rfl .init
    ⟨32768, by decide⟩ (by decide) (by decide) octetwise octetwise_sends
    [.settck 100, .shift 10 (memOf [0x5a, 0x01]) (memOf [0xc3, 0x02])] (by simp [Message.Fits]) []
  exact ⟨s0, hinit, hsent.trans (by decide +kernel)⟩

end XvcSupport.JtagDriverTmemFifo

namespace XvcSupport.XvcClient

open Jtag2BSCAN Tmem2BSCANWrapper RegisterDriver JtagDriver JtagDriverTmemFifo
open JtagTapIR (Generics)
open XvcConn (Port Message Config Io DrvKind Shows blockBackend blockBackend_reliable blockLongest
  ascii octetwise octetwise_sends)
open AxisToJtag (Tap edgesOf edgesOf_append)

/-- The server in front of a block of registers that is ready. -/
def Server.ofBlock {tap : Tap} {σ : Type} (B : Block tap σ) (kind : DrvKind)
    (cvtPerNs : Header → BitVec 32) (code : ℕ → Header) {fuel : ℕ} (hfuel : 2 ^ 20 < fuel)
    (s0 : Port (Transfer σ)) (seen : List (Bool × Bool)) (cfg : Config)
    (hchunk : blockLongest kind cfg ≤ 2 ^ 17)
    (hshows : Shows B (blockLongest kind cfg) s0 (edgesOf seen)) (io : Io) (hio : io.Sends)
    (hmax : cfg.maxVecLen ≤ 0xFFFFFFF8) : Server tap where
  State := Port (Transfer σ)
  backend := blockBackend B kind cvtPerNs code hfuel hchunk
  start := s0
  seen := seen
  cfg := cfg
  io := io
  reliable := blockBackend_reliable B kind cvtPerNs code hfuel hchunk
  fresh := hshows
  chunk_le := le_rfl
  sends := hio
  maxVecLen_le := hmax

variable {L : ℕ} {cs : BitVec 2} {fuel : ℕ}

end XvcSupport.XvcClient
