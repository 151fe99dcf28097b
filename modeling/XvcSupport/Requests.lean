import XvcSupport.Responses
import XvcSupport.ReplyMemory
import XvcSupport.WordShifts

namespace XvcSupport.JtagDriver

open AxisToJtag
open Protocol (frame)

section Attempt

variable {σ : Type*} {exchange : Exchange σ} {l : Link σ} {bits : ℕ} {tms tdi : Mem} {net : σ}
  {reply : List Byte}

theorem getErr_mkShift (xid : Xid) (h1 : 1 ≤ bits) (h20 : bits ≤ 2 ^ 20) :
    getErr (mkShift xid bits) = 0 := by
  rw [getErr, if_pos]
  rw [getCmd_mkShift xid h1 h20]
  decide

theorem sendVectors_ok (h4 : 4 ≤ l.drv.wordSize) (h16 : l.drv.wordSize ≤ 16) (h1 : 1 ≤ bits)
    (h20 : bits ≤ 2 ^ 20)
    (hex : exchange l.net (l.drv.shiftMsg bits tms tdi) = (.ok reply, net))
    (hlen : l.drv.wordSize ≤ reply.length)
    (hhdr : getHdr reply = mkShift (newXid l.drv.xid) bits) (p : ℕ) :
    sendVectors exchange bits tms tdi p l =
      (none, { drv := l.drv.afterShift bits tms tdi
               tdo := memcpy l.tdo p (memOf (reply.drop l.drv.wordSize)) 0
                 (min (bytesCeil bits) (reply.length - l.drv.wordSize))
               net := net }) := by
  have hu : u32 (bytesCeil bits) = bytesCeil bits := by
    apply u32_of_lt
    unfold bytesCeil
    omega
  have hmsg : getHdr (l.drv.shiftMsg bits tms tdi) = mkShift (newXid l.drv.xid) bits :=
    getHdr_shiftMsg l.drv tms tdi h4 h16 (by omega)
  have hjudge : judge (getXid (getHdr (l.drv.shiftMsg bits tms tdi))) (getHdr reply) =
      .accept := by
    rw [hmsg, hhdr, judge, getErr_mkShift _ h1 h20]
    simp
  have hshort : ¬ reply.length < l.drv.wordSize := not_lt.mpr hlen
  simp only [sendVectors, xferRel, xfer, hex, storeReply, hshort, if_false, hjudge, hu]

theorem xferRel_query_ok (h4 : 4 ≤ l.drv.wordSize)
    (hex : exchange l.net l.drv.queryMsg = (.ok reply, net))
    (hlen : l.drv.wordSize ≤ reply.length) (herr : getErr (getHdr reply) = 0) :
    (xferRel (xfer exchange l.drv.queryMsg l.drv.wordSize 0 0) (getXid (getHdr l.drv.queryMsg))
      (l.drv.retry + 1) (l.tdo, l.net)) =
      (.ok (getHdr reply), memcpy l.tdo 0 (memOf (reply.drop l.drv.wordSize)) 0 0, net) := by
  have hjudge : judge (getXid (getHdr l.drv.queryMsg)) (getHdr reply) = .accept := by
    rw [getHdr_queryMsg _ h4, judge, herr]
    simp [show getXid mkQuery = xidAny from by decide]
  have hshort : ¬ reply.length < l.drv.wordSize := not_lt.mpr hlen
  simp only [xferRel, xfer, hex, storeReply, hshort, if_false, hjudge, Nat.zero_min]

theorem query_ok (h4 : 4 ≤ l.drv.wordSize) (hex : exchange l.net l.drv.queryMsg = (.ok reply, net))
    (hlen : l.drv.wordSize ≤ reply.length) (herr : getErr (getHdr reply) = 0) :
    query exchange l =
      ((l.drv.afterQueryMsg.adopt (getHdr reply)).1,
        { drv := (l.drv.afterQueryMsg.adopt (getHdr reply)).2
          tdo := memcpy l.tdo 0 (memOf (reply.drop l.drv.wordSize)) 0 0
          net := net }) := by
  simp only [query, xferRel_query_ok h4 hex hlen herr]

end Attempt

variable (g : Generics) (tap : Tap)

/-- The transport to the firmware; its state are the request frames since reset. -/
def firmware : Exchange (List (List (BitVec g.W))) := fun sent msg =>
  (.ok (octetsOf g.axisWidth
    (serve g tap (afterAll tap (Fw.init g.W) sent) (frame g msg)).1), sent ++ [frame g msg])

variable {g} in
/-- The driver knows the word size and has room for the firmware's memory, and a reply that the
firmware holds is the one to the driver's last shift. -/
structure Tied (l : Link (List (List (BitVec g.W)))) : Prop where
  wordSize : l.drv.wordSize = g.axisWidth
  reserved : (2 * g.memDepth + 1) * g.axisWidth ≤ l.drv.bufSz
  xid : (afterAll tap (Fw.init g.W) l.net).memValid = true →
    (afterAll tap (Fw.init g.W) l.net).xid = l.drv.xid
  tidy : AllTidy tap (Fw.init g.W) l.net

variable {g tap} {d : Drv} {bits : ℕ}

theorem frame_shift (hw : d.wordSize = g.axisWidth) (h1 : 1 ≤ bits) (h20 : bits ≤ 2 ^ 20)
    (tms tdi : Mem) :
    ∃ ws, frame g (d.shiftMsg bits tms tdi) =
        (mkShift (newXid d.xid) bits).setWidth g.W :: ws ∧
      announced ((mkShift (newXid d.xid) bits).setWidth g.W) = bits ∧
      2 * wordCount g.W bits ≤ ws.length ∧
      requestBits ((mkShift (newXid d.xid) bits).setWidth g.W) ws = vectorBits tms tdi bits := by
  have hW := g.le_W
  have hb : bits < 2 ^ 32 := by omega
  obtain ⟨wordSize, memDepth, txBuf, bufSz, retry, xid⟩ := d
  obtain rfl : wordSize = g.axisWidth := hw
  set d : Drv := ⟨g.axisWidth, memDepth, txBuf, bufSz, retry, xid⟩
  obtain ⟨hcons, hlen⟩ := wordsOf_shiftMsg d tms tdi g.four_le g.le_sixteen hb
  have hdec := decode_shiftMsg d tms tdi g.four_le g.le_sixteen hb h1 h20
  set ws := (wordsOf g.axisWidth (d.shiftMsg bits tms tdi)).tail with hws
  have hann : announced ((mkShift (newXid d.xid) bits).setWidth g.W) = bits := by
    rw [announced, AxisToJtagPkg.getLen, extractLsb'_setWidth_high _ hW (by decide),
      ← AxisToJtagPkg.getLen, getLen_mkShift _ h1 hb, Nat.mod_eq_of_lt (by omega)]
    omega
  have hwslen : ws.length = 2 * ((bytesCeil bits + g.axisWidth - 1) / g.axisWidth) := by
    rw [hws, List.length_tail]
    exact (congrArg (· - 1) hlen).trans (Nat.add_sub_cancel_left _ _)
  refine ⟨ws, hcons, hann, ?_, ?_⟩
  · have hcount : wordCount g.W bits ≤ (bytesCeil bits + g.axisWidth - 1) / g.axisWidth := by
      have hc := le_ceil_mul (by have := g.four_le; omega : 0 < g.axisWidth) (bytesCeil bits)
      rw [wordCount_le g.W_pos]
      have hm := g.W_mul ((bytesCeil bits + g.axisWidth - 1) / g.axisWidth)
      rw [Nat.mul_comm] at hm
      have hle : bits ≤ 8 * bytesCeil bits := by unfold bytesCeil; omega
      omega
    omega
  · rw [requestBits, hann, vectorBits, ← hdec, decode, hcons]
    exact congrArg (fun n => vecBits n (pairs ws)) hann.symm

theorem idle_shift {a : ℕ} (ha : g.W = 2 ^ a) (fw : Fw g.W)
    (hxid : fw.memValid = true → fw.xid = d.xid) (h1 : 1 ≤ bits) (h20 : bits ≤ 2 ^ 20)
    (hmem : g.memDepth = 0 ∨ bits ≤ g.W * g.memDepth) :
    idle g fw.xid fw.memValid ((mkShift (newXid d.xid) bits).setWidth g.W) false = .execute ∧
      AxisToJtagPkg.getXid ((mkShift (newXid d.xid) bits).setWidth g.W) = newXid d.xid := by
  have hcall := XvcConn.Call.readsBack_of_le
    (c := ⟨d.xid, newXid d.xid, mkShift (newXid d.xid) bits, bits⟩) ha d.txBuf rfl rfl h1 h20 hmem
  rw [XvcConn.Call.ReadsBack, XvcConn.Call.word_eq] at hcall
  obtain ⟨hver, hcmd, hx, -, -, -, hcheck⟩ := hcall
  refine ⟨idle_execute hver hcmd hcheck ?_, hx⟩
  unfold xidIsNew
  split_ifs with h
  · rfl
  · rw [not_or, Bool.not_eq_false] at h
    rw [hx, hxid h.2, bne_iff_ne]
    exact newXid_ne_self d.xid

def shiftWords (g : Generics) (tap : Tap) (hist : List Edge) (vec : List (Bool × Bool)) :
    List (BitVec g.W) :=
  (List.range (wordCount g.W vec.length)).map (tdoWord g.W vec.length (tdoAt tap hist vec))

def shiftReply (g : Generics) (tap : Tap) (x : Xid) (hist : List Edge) (vec : List (Bool × Bool)) :
    List (BitVec g.W) :=
  (mkShift x vec.length).setWidth g.W :: shiftWords g tap hist vec

def held (g : Generics) (x : Xid) (tdo : List (BitVec g.W)) (hist : List Edge) : Fw g.W where
  xid := x
  memValid := decide (0 < g.memDepth)
  mem := tdo
  hist := hist

variable (tap) in
theorem serve_shift {a : ℕ} (ha : g.W = 2 ^ a) (fw : Fw g.W) (hw : d.wordSize = g.axisWidth)
    (hxid : fw.memValid = true → fw.xid = d.xid) (h1 : 1 ≤ bits) (h20 : bits ≤ 2 ^ 20)
    (hmem : g.memDepth = 0 ∨ bits ≤ g.W * g.memDepth) (tms tdi : Mem) :
    let vec := vectorBits tms tdi bits
    TidyAt fw (frame g (d.shiftMsg bits tms tdi)) ∧
      serve g tap fw (frame g (d.shiftMsg bits tms tdi)) =
        (shiftReply g tap (newXid d.xid) fw.hist vec,
          held g (newXid d.xid) (shiftWords g tap fw.hist vec) (fw.hist ++ edgesOf vec)) := by
  intro vec
  have hveclen : vec.length = bits := by simp [vec]
  obtain ⟨ws, hframe, hann, hlen, hbits⟩ := frame_shift hw h1 h20 tms tdi
  obtain ⟨hex, hx⟩ := idle_shift ha fw hxid h1 h20 hmem
  set w := (mkShift (newXid d.xid) bits).setWidth g.W with hwdef
  have hpos := wordCount_pos g.W_pos h1
  have hpay : 2 * wordCount g.W (announced w) ≤ ws.length := by rwa [hann]
  have hempty : ws.isEmpty = false := by
    cases ws with
    | nil => simp at hlen; omega
    | cons w' ws => rfl
  have hserve : serve g tap fw (w :: ws) = _ :=
    serve_execute (by rw [hempty]; exact hex) (by omega : ws.length ≠ 1)
  have hvec : shiftBits g w ws = vec := by
    rw [shiftBits, shiftLen_complete hpay]
    exact hbits
  have htdo : shiftTdo g tap fw.hist w ws = shiftWords g tap fw.hist vec := by
    rw [shiftTdo, hvec, shiftLen_complete hpay, shiftWords, hveclen]
    exact congrArg (fun n => (List.range (wordCount g.W n)).map
      (tdoWord g.W n (tdoAt tap fw.hist vec))) hann
  rw [hframe]
  refine ⟨fun _ => Or.inr (Or.inr hpay), ?_⟩
  rw [hserve, htdo, hvec, hx, shiftReply, hveclen]
  rfl

variable (tap) in
theorem serve_again {a : ℕ} (ha : g.W = 2 ^ a) (hd : 0 < g.memDepth)
    (hw : d.wordSize = g.axisWidth) (h1 : 1 ≤ bits) (h20 : bits ≤ 2 ^ 20)
    (hmem : g.memDepth = 0 ∨ bits ≤ g.W * g.memDepth) (tms tdi : Mem) (tdo : List (BitVec g.W))
    (hist : List Edge) :
    TidyAt (held g (newXid d.xid) tdo hist) (frame g (d.shiftMsg bits tms tdi)) ∧
      serve g tap (held g (newXid d.xid) tdo hist) (frame g (d.shiftMsg bits tms tdi)) =
        ((mkShift (newXid d.xid) bits).setWidth g.W :: tdo,
          held g (newXid d.xid) tdo hist) := by
  obtain ⟨ws, hframe, -, hlen, -⟩ := frame_shift hw h1 h20 tms tdi
  obtain ⟨hex, hx⟩ := idle_shift ha (Fw.init g.W) (by simp [Fw.init]) h1 h20 hmem
  have hpos := wordCount_pos g.W_pos h1
  have hempty : ws.isEmpty = false := by
    cases ws with
    | nil => simp at hlen; omega
    | cons w' ws => rfl
  set fw := held g (newXid d.xid) tdo hist with hfw
  have hstarts : starts g (Fw.init g.W)
      ((mkShift (newXid d.xid) bits).setWidth g.W :: ws) = true := by
    rw [starts, hempty, hex]
    simp
    omega
  have hreplays : replays g fw ((mkShift (newXid d.xid) bits).setWidth g.W :: ws) = true :=
    Protocol.replays_of_starts g hd hstarts hx.symm (by simp [hfw, held, hd])
  have hidle := of_decide_eq_true hreplays
  rw [hframe]
  constructor
  · intro hexec
    rw [hidle] at hexec
    cases hexec
  · simp only [serve, hidle]
    rfl

variable (tap) in
theorem serve_query (fw : Fw g.W) (h4 : 4 ≤ d.wordSize) :
    ∃ w ws, frame g d.queryMsg = w :: ws ∧ w.setWidth 32 = mkQuery ∧ TidyAt fw (w :: ws) ∧
      serve g tap fw (w :: ws) = ([setQueryData g w], { fw with memValid := false }) := by
  have hax := g.four_le
  have hlen : (frame g d.queryMsg).length = (d.wordSize + g.axisWidth - 1) / g.axisWidth := by
    rw [frame, wordsOf_length, Drv.queryMsg, slice_length]
  have hpos : 0 < (frame g d.queryMsg).length := by
    rw [hlen]
    exact Nat.div_pos (by omega) (by omega)
  obtain ⟨w, ws, hframe⟩ := List.exists_cons_of_length_pos hpos
  have hw : w.setWidth 32 = mkQuery :=
    (Protocol.setWidth_of_frame g hframe).trans (getHdr_queryMsg d h4)
  have hver : AxisToJtagPkg.getVersion w = AxisToJtagPkg.proVersn := by
    rw [AxisToJtagPkg.getVersion, ← extractLsb'_setWidth_low _ (by decide), hw]
    decide
  have hcmd : AxisToJtagPkg.getCommand w = AxisToJtagPkg.cmdQuery := by
    rw [AxisToJtagPkg.getCommand, ← extractLsb'_setWidth_low _ (by decide), hw]
    decide
  have hidle : idle g fw.xid fw.memValid w ws.isEmpty = .query := by
    rw [idle, if_neg (by rw [hver]; simp), if_pos hcmd]
  refine ⟨w, ws, hframe, hw, ?_, ?_⟩
  · intro hexec
    rw [hidle] at hexec
    cases hexec
  · simp only [serve, hidle]

theorem shiftReply_octets (tap : Tap) (x : Xid) (hist : List Edge) {vec : List (Bool × Bool)}
    (hvec : vec.length = bits) {n : ℕ} (hn : n = g.axisWidth) :
    let reply := octetsOf g.axisWidth (shiftReply g tap x hist vec)
    n ≤ reply.length ∧ getHdr reply = mkShift x bits ∧
      ∀ (m : Mem) (p : ℕ), memcpy m p (memOf (reply.drop n)) 0
          (min (bytesCeil bits) (reply.length - n)) =
        memcpy m p (memOf (octetsOfBits (response tap hist vec))) 0 (bytesCeil bits) := by
  intro reply
  subst hn hvec
  have hax := g.four_le
  have hoctets : reply = unpackLE g.axisWidth ((mkShift x vec.length).setWidth g.W) ++
      octetsOf g.axisWidth (shiftWords g tap hist vec) := rfl
  have hlen : reply.length = g.axisWidth + wordCount g.W vec.length * g.axisWidth := by
    rw [hoctets, List.length_append, unpackLE_length, Protocol.octetsOf_length, shiftWords,
      List.length_map, List.length_range]
  have hcount : bytesCeil vec.length ≤ wordCount g.W vec.length * g.axisWidth := by
    have hle := le_mul_wordCount g.W_pos vec.length
    have hm := g.W_mul (wordCount g.W vec.length)
    unfold bytesCeil
    omega
  refine ⟨by omega, ?_, fun m p => ?_⟩
  · have hhdr := Protocol.getHdr_octetsOf g ((mkShift x vec.length).setWidth g.W)
      (shiftWords g tap hist vec)
    rw [BitVec.setWidth_setWidth_of_le _ g.le_W, BitVec.setWidth_eq] at hhdr
    exact hhdr
  · have hdrop : reply.drop g.axisWidth = octetsOf g.axisWidth (shiftWords g tap hist vec) := by
      rw [hoctets, List.drop_append_of_le_length (by simp), List.drop_eq_nil_of_le (by simp),
        List.nil_append]
    have hmin : min (bytesCeil vec.length) (reply.length - g.axisWidth) =
        bytesCeil vec.length := by
      rw [hlen]
      omega
    rw [hdrop, hmin]
    funext i
    unfold memcpy
    split_ifs with hi
    · have hk : i - p < bytesCeil vec.length := by omega
      rw [memOf, memOf, Nat.add_zero, shiftWords, response]
      exact octets_tdoWords _ hk (by omega)
    · rfl

section Calls

variable {l : Link (List (List (BitVec g.W)))}

theorem afterAll_snoc (sent : List (List (BitVec g.W))) (f : List (BitVec g.W)) :
    afterAll tap (Fw.init g.W) (sent ++ [f]) =
      (serve g tap (afterAll tap (Fw.init g.W) sent) f).2 := by
  rw [afterAll_append]
  rfl

/-- `sendVectors()` clocks its vectors into the TAP and stores the TDO octets, over a transport that
takes its message. -/
theorem Tied.sendVectors {a : ℕ} (ha : g.W = 2 ^ a) (h : Tied tap l) (h1 : 1 ≤ bits)
    (h20 : bits ≤ 2 ^ 20) (hmem : g.memDepth = 0 ∨ bits ≤ g.W * g.memDepth) (tms tdi : Mem)
    (p : ℕ) {exchange : Exchange (List (List (BitVec g.W)))}
    (htakes : exchange l.net (l.drv.shiftMsg bits tms tdi) =
      firmware g tap l.net (l.drv.shiftMsg bits tms tdi)) :
    let vec := vectorBits tms tdi bits
    let hist := (afterAll tap (Fw.init g.W) l.net).hist
    ∃ l', JtagDriver.sendVectors exchange bits tms tdi p l = (none, l') ∧ Tied tap l' ∧
      l'.drv.bufSz = l.drv.bufSz ∧
      l'.net = l.net ++ [frame g (l.drv.shiftMsg bits tms tdi)] ∧
      l'.tdo = memcpy l.tdo p (memOf (octetsOfBits (response tap hist vec))) 0 (bytesCeil bits) ∧
      (afterAll tap (Fw.init g.W) l'.net).hist = hist ++ edgesOf vec := by
  intro vec hist
  have hws := h.wordSize
  obtain ⟨htidy, hserve⟩ := serve_shift tap ha (afterAll tap (Fw.init g.W) l.net) hws h.xid h1 h20
    hmem tms tdi
  obtain ⟨hle, hhdr, hstore⟩ := shiftReply_octets tap (newXid l.drv.xid) hist
    (vectorBits_length tms tdi bits) hws
  have hex : exchange l.net (l.drv.shiftMsg bits tms tdi) =
      (.ok (octetsOf g.axisWidth (shiftReply g tap (newXid l.drv.xid) hist vec)),
        l.net ++ [frame g (l.drv.shiftMsg bits tms tdi)]) := by
    rw [htakes, firmware, hserve]
  refine ⟨_, sendVectors_ok (hws ▸ g.four_le) (hws ▸ g.le_sixteen) h1 h20 hex hle hhdr p, ?_, rfl,
    rfl, ?_, ?_⟩
  · refine ⟨hws, h.reserved, ?_, allTidy_append.mpr ⟨h.tidy, htidy, trivial⟩⟩
    intro _
    rw [afterAll_snoc, hserve]
    rfl
  -- of the reply, the octets behind the header word are stored
  · exact hstore l.tdo p
  · rw [afterAll_snoc, hserve]
    rfl

theorem getErr_setQueryData {w : BitVec g.W} (hw : w.setWidth 32 = mkQuery) :
    getErr ((setQueryData g w).setWidth 32) = 0 := by
  have hW := g.le_W
  rw [getErr, if_pos]
  intro hcmd
  have hbit : w.getLsbD 29 = false := by
    have h := congrArg (fun x => x.getLsbD 29) hw
    simp only [BitVec.getLsbD_setWidth] at h
    simpa [mkQuery, pvers, cmdQ, xidAny] using h
  have h29 := congrArg (fun x => BitVec.getLsbD x 29) hcmd
  simp only [getCmd, BitVec.getLsbD_and, BitVec.getLsbD_setWidth, setQueryData] at h29
  rw [getLsbD_putSlice _ _ _ (by omega), getLsbD_putSlice _ _ _ (by omega),
    getLsbD_putSlice _ _ _ (by omega), getLsbD_putSlice _ _ _ (by omega)] at h29
  simp [hbit, cmdE] at h29

/-- The query data overwrite all but the version and the command. -/
theorem setQueryData_congr {w w' : BitVec g.W} (h : w.setWidth 32 = w'.setWidth 32) :
    (setQueryData g w).setWidth 32 = (setQueryData g w').setWidth 32 := by
  have hW := g.le_W
  apply BitVec.eq_of_getLsbD_eq
  intro i hi
  have hbit : w.getLsbD i = w'.getLsbD i := by
    have hi' := congrArg (fun x => x.getLsbD i) h
    simpa [BitVec.getLsbD_setWidth, hi] using hi'
  simp only [BitVec.getLsbD_setWidth, setQueryData]
  rw [getLsbD_putSlice _ _ _ (by omega), getLsbD_putSlice _ _ _ (by omega),
    getLsbD_putSlice _ _ _ (by omega), getLsbD_putSlice _ _ _ (by omega),
    getLsbD_putSlice _ _ _ (by omega), getLsbD_putSlice _ _ _ (by omega),
    getLsbD_putSlice _ _ _ (by omega), getLsbD_putSlice _ _ _ (by omega), hbit]

theorem queryReply_octets {w : BitVec g.W} (hw : w.setWidth 32 = mkQuery) :
    let reply := octetsOf g.axisWidth [setQueryData g w]
    reply.length = g.axisWidth ∧ getHdr reply = XvcConn.queryReply g ∧
      getErr (getHdr reply) = 0 := by
  intro reply
  have hhdr : getHdr reply = (setQueryData g w).setWidth 32 := Protocol.getHdr_octetsOf g _ _
  have hwide : (mkQuery.setWidth g.W).setWidth 32 = mkQuery := by
    rw [BitVec.setWidth_setWidth_of_le _ g.le_W, BitVec.setWidth_eq]
  refine ⟨?_, ?_, ?_⟩
  · rw [Protocol.octetsOf_length, List.length_singleton, Nat.one_mul]
  · rw [hhdr, XvcConn.queryReply, setQueryData_congr (hw.trans hwide.symm)]
  · rw [hhdr]
    exact getErr_setQueryData hw

variable (g) in
theorem adopt_queryReply (d : Drv) : ∃ d', d.adopt (XvcConn.queryReply g) = (none, d') ∧
    d'.wordSize = g.axisWidth ∧ d'.memDepth = g.memDepth ∧
    d'.bufSz = max d.bufSz ((2 * g.memDepth + 1) * g.axisWidth) ∧
    d'.retry = if g.memDepth = 0 then 0 else 5 := by
  have hsize : JtagDriver.wordSize (XvcConn.queryReply g) = g.axisWidth :=
    XvcConn.wordSize_setQueryData g _
  have hdepth : JtagDriver.memDepth (XvcConn.queryReply g) = g.memDepth :=
    XvcConn.memDepth_setQueryData g _
  obtain ⟨hnone, hadopt, hadopt', hbuf⟩ :=
    XvcConn.adopt_valid d ⟨XvcConn.queryReply g, hsize ▸ g.four_le⟩
  have hfour : ¬ JtagDriver.wordSize (XvcConn.queryReply g) < 4 := by
    rw [hsize]
    exact not_lt.mpr g.four_le
  have hsiz : XvcConn.QueryReply.siz ⟨XvcConn.queryReply g, hsize ▸ g.four_le⟩ =
      (2 * g.memDepth + 1) * g.axisWidth :=
    congrArg₂ (fun m w => (2 * m + 1) * w) hdepth hsize
  rw [hsiz] at hbuf
  refine ⟨_, Prod.ext hnone rfl, hadopt.trans hsize, hadopt'.trans hdepth, hbuf, ?_⟩
  rw [← hdepth]
  simp only [Drv.adopt, hfour, if_false]
  split_ifs <;> rfl

theorem query_firmware (h4 : 4 ≤ l.drv.wordSize) (hle : l.drv.wordSize ≤ g.axisWidth)
    (htidy : AllTidy tap (Fw.init g.W) l.net) {exchange : Exchange (List (List (BitVec g.W)))}
    (htakes : exchange l.net l.drv.queryMsg = firmware g tap l.net l.drv.queryMsg) :
    ∃ l', query exchange l = (none, l') ∧ Tied tap l' ∧
      l'.drv.memDepth = g.memDepth ∧ l.drv.bufSz ≤ l'.drv.bufSz ∧
      l'.net = l.net ++ [frame g l.drv.queryMsg] ∧
      (afterAll tap (Fw.init g.W) l'.net).hist = (afterAll tap (Fw.init g.W) l.net).hist ∧
      (xferRel (xfer exchange l.drv.queryMsg l.drv.wordSize 0 0)
        (getXid (getHdr l.drv.queryMsg)) (l.drv.retry + 1) (l.tdo, l.net)).1 =
        .ok (XvcConn.queryReply g) := by
  obtain ⟨w, ws, hframe, hw, hshort, hserve⟩ :=
    serve_query tap (afterAll tap (Fw.init g.W) l.net) h4
  obtain ⟨hlen, hhdr, herr⟩ := queryReply_octets hw
  obtain ⟨d', hadopt, hsize, hdepth, hbuf, -⟩ := adopt_queryReply g l.drv.afterQueryMsg
  have hex : exchange l.net l.drv.queryMsg =
      (.ok (octetsOf g.axisWidth [setQueryData g w]), l.net ++ [w :: ws]) := by
    rw [htakes, firmware, hframe, hserve]
  have hafter : (afterAll tap (Fw.init g.W) (l.net ++ [w :: ws])) =
      { afterAll tap (Fw.init g.W) l.net with memValid := false } := by
    rw [afterAll_snoc, hserve]
  have hquery := query_ok (l := l) h4 hex (hle.trans hlen.ge) herr
  rw [hhdr, hadopt] at hquery
  refine ⟨_, hquery, ⟨hsize, (le_max_right _ _).trans hbuf.ge, ?_, ?_⟩, hdepth,
    (le_max_left _ _).trans hbuf.ge, by rw [hframe], ?_, ?_⟩
  · intro hvalid
    rw [hafter] at hvalid
    exact absurd hvalid (by simp)
  · exact allTidy_append.mpr ⟨htidy, hshort, trivial⟩
  · rw [hafter]
  · rw [xferRel_query_ok h4 hex (hle.trans hlen.ge) herr, hhdr]

end Calls

end XvcSupport.JtagDriver
