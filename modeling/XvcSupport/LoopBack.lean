import XvcSupport.RegisterDrivers

namespace XvcSupport

namespace JtagDriverLoopBack

open JtagDriver

/-- The formats by which the playback file is read. -/
inductive Format
  | tdi
  | tms
  | lenBits
  | tdo
deriving DecidableEq, Repr

def Format.text : Format → String
  | .tdi => "TDI : %li"
  | .tms => "TMS : %li"
  | .lenBits => "LENBITS: %li"
  | .tdo => "TDO : %li"

/-- What is thrown. -/
inductive Exn
  | unableToScan (fmt : Format) (line : ℕ)
  | valueMismatch (val cmp : BitVec 64) (line : ℕ)
  | notEnoughTxBytes
  | noValidMessage
  | header (e : Err)
deriving DecidableEq, Repr

/-- The exception as the caller sees it. -/
def Exn.err : Exn → Err
  | .unableToScan fmt line =>
    .runtimeErr ("Unable to scan (format " ++ fmt.text ++ "; line " ++ toString line ++ ")")
  | .valueMismatch val cmp line =>
    .runtimeErr ("value mismatch -- got 0x" ++ String.ofList (Nat.toDigits 16 val.toNat) ++
      "; expected 0x" ++ String.ofList (Nat.toDigits 16 cmp.toNat) ++ " (@line " ++
      toString line ++ ")")
  | .notEnoughTxBytes => .runtimeErr "Not enough TX bytes??"
  | .noValidMessage =>
    .runtimeErr "ERROR: UdpLoopBack - attempted retry but have no valid message!"
  | .header e => e

def Exn.OfPlayback : Exn → Prop
  | .unableToScan _ _ => True
  | .valueMismatch _ _ _ => True
  | _ => False

/-- The fields of `UdpLoopBack`, and its `tbuf_` as the header and the payload of the reply. The
playback file is what `fgets` makes of it, line by line; `rest` is what it has not read yet. -/
structure Emul (L : Type) where
  file : Option (List L)
  rest : List L
  skip : Bool
  tdoOnly : Bool
  line : ℕ
  hdbuf : Mem
  rxb : Mem
  tsiz : ℤ

/-- The emulation as it is constructed; the contents of `tbuf_` are left open. -/
def Emul.new {L : Type} (file : Option (List L)) (tdoOnly : Bool) (hdbuf rxb : Mem) : Emul L where
  file := file
  rest := file.getD []
  skip := file.isNone
  tdoOnly := tdoOnly
  line := 1
  hdbuf := hdbuf
  rxb := rxb
  tsiz := -1

abbrev M (L : Type) : Type → Type := StateT (Emul L) (Except Exn)

section Playback

variable {L : Type} (scan : Format → L → Option (BitVec 64))

/-- `rdl`; `none` is its `false`. -/
def rdl : M L (Option L) := do
  let e ← get
  if e.skip then
    return none
  else
    match e.rest with
    | [] =>
      set { e with skip := true }
      return none
    | l :: ls =>
      set { e with rest := ls }
      return some l

/-- `check`; `scan` is what `sscanf` finds in a line. -/
def check (val : BitVec 64) (fmt : Format) (rdOnly : Bool) : M L (BitVec 64) := do
  match ← rdl with
  | none => return 0
  | some l =>
    let e ← get
    match scan fmt l with
    | none => throw (.unableToScan fmt e.line)
    | some cmp =>
      if rdOnly = false ∧ cmp ≠ val then
        throw (.valueMismatch val cmp e.line)
      else
        set { e with line := e.line + 1 }
        return cmp

/-- `checkTMS`, `checkTDI` and `checkLEN`. -/
def checkVal (fmt : Format) (val : BitVec 64) : M L Unit := do
  let e ← get
  if e.tdoOnly then
    return ()
  else
    let _ ← check scan val fmt false

def checkTMS : BitVec 64 → M L Unit := checkVal scan .tms
def checkTDI : BitVec 64 → M L Unit := checkVal scan .tdi
def checkLEN : BitVec 64 → M L Unit := checkVal scan .lenBits
def getTDO : M L (BitVec 64) := check scan 0 .tdo true

end Playback

section Requests

variable {L : Type} (scan : Format → L → Option (BitVec 64))

def emulWordSize : ℕ := 4

/-- `getValLE(&txb[p], wsz)`. -/
def getValLE (txb : List Byte) (p wsz : ℕ) : BitVec 64 := packLE 64 ((txb.drop p).take wsz)

/-- `setValLE(val, &rxb[p], wsz)`. -/
def setValLE (val : BitVec 64) (p wsz : ℕ) (rxb : Mem) : Mem :=
  memcpy rxb p (memOf (unpackLE wsz val)) 0 wsz

/-- What is done with the `n` octets of TMS and of TDI at `i` behind the header. -/
def checkPair (txb : List Byte) (i j n : ℕ) : M L Unit := do
  checkTMS scan (getValLE txb (emulWordSize + i) n)
  checkTDI scan (getValLE txb (emulWordSize + emulWordSize + i) n)
  modify fun e =>
    if e.skip then
      { e with rxb := memcpy e.rxb j (memOf txb) (emulWordSize + emulWordSize + i) n }
    else e

def playWord (bytes k : ℕ) : M L Unit := do
  let tdo ← getTDO scan
  modify fun e =>
    { e with rxb := setValLE tdo (k * emulWordSize) (min (bytes - k * emulWordSize) 4) e.rxb }

def checkVectors (txb : List Byte) (bytes : ℕ) : M L Unit := do
  let wbytes := bytes / emulWordSize * emulWordSize
  (List.range (bytes / emulWordSize)).forM fun k =>
    checkPair scan txb (k * (2 * emulWordSize)) (k * emulWordSize) emulWordSize
  if 0 < bytes - wbytes then
    checkPair scan txb (2 * wbytes) wbytes (bytes - wbytes)
  else
    return ()

def playVector (bytes : ℕ) : M L Unit := do
  let e ← get
  if e.skip then
    return ()
  else
    (List.range ((bytes + emulWordSize - 1) / emulWordSize)).forM (playWord scan bytes)

/-- The branch `CMD_S`. -/
def shift (txb : List Byte) (h : Header) : M L ℕ := do
  match getLen h with
  | .error e => throw (.header e)
  | .ok bits =>
    checkLEN scan (BitVec.ofNat 64 bits)
    let bytes := (bits + 7) / 8
    if txb.length < emulWordSize + 2 * bytes then
      throw .notEnoughTxBytes
    else
      checkVectors scan txb bytes
      playVector scan bytes
      return bytes

/-- `memcpy(hdbuf, &h, 4)`. -/
def putHdr (h : Header) (e : Emul L) : Emul L :=
  { e with hdbuf := memcpy e.hdbuf 0 (memOf (unpackLE 4 h)) 0 4 }

def rewind (e : Emul L) : Emul L :=
  match e.file with
  | none => e
  | some lines => { e with rest := lines, skip := false }

def errorReply (h : Header) (code : Header) : Header :=
  (h &&& ~~~(cmdMask ||| lenMask)) ||| (cmdE ||| code)

/-- `JtagDriverLoopBack::xfer` with the depth `dpt`. -/
def xfer (dpt : ℕ) (txb : List Byte) : M L ℕ := do
  if txb.length < 4 then
    return 0
  else
    let h := getHdr txb
    if getVrs h ≠ pvers then
      modify (putHdr (errorReply h 2))
      return 0
    else if getCmd h = cmdQ then
      modify rewind
      modify (putHdr (h ||| (((BitVec.ofNat 32 dpt &&& 0xfffff) <<< 4) |||
        BitVec.ofNat 32 (emulWordSize - 1))))
      return 0
    else if getCmd h = cmdS then
      let bytes ← shift scan txb h
      modify (putHdr h)
      return bytes
    else
      modify (putHdr (errorReply h 1))
      return 0

end Requests

end JtagDriverLoopBack

open JtagDriver JtagDriverLoopBack

namespace UdpLoopBack

variable {L : Type} (scan : Format → L → Option (BitVec 64))

def emulMemDepth : ℕ := 1450 / 2 / emulWordSize - 1

def rxh (e : Emul L) : Header := getHdr (slice e.hdbuf 0 4)

def isRetry (e : Emul L) (txb : List Byte) : Bool :=
  getCmd (getHdr txb) = cmdS && getXid (getHdr txb) = getXid (rxh e)

/-- `UdpLoopBack::xfer`. -/
def xfer (txb : List Byte) : M L ℤ := do
  let e ← get
  if getCmd (getHdr txb) = cmdQ then
    -- assume a new connection
    set { e with tsiz := -1 }
    return (← JtagDriverLoopBack.xfer scan emulMemDepth txb : ℕ)
  else if isRetry e txb then
    -- resend what we have
    if e.tsiz < 0 then
      throw .noValidMessage
    else
      return e.tsiz
  else if getCmd (getHdr txb) = cmdS then
    let got ← JtagDriverLoopBack.xfer scan emulMemDepth txb
    modify fun e => { e with tsiz := got }
    return got
  else
    return (← JtagDriverLoopBack.xfer scan emulMemDepth txb : ℕ)

end UdpLoopBack

namespace JtagDriverLoopBack

variable {L α β : Type} {scan : Format → L → Option (BitVec 64)}

/-- Nothing is thrown but what the playback finds. -/
def Checked (x : M L α) : Prop := ∀ e exn, x e = .error exn → exn.OfPlayback

theorem Checked.pure (a : α) : Checked (pure a : M L α) := by
  intro e exn h
  cases h

theorem Checked.modify (f : Emul L → Emul L) : Checked (modify f : M L PUnit) := by
  intro e exn h
  cases h

theorem Checked.throw {exn : Exn} (h : exn.OfPlayback) : Checked (throw exn : M L α) := by
  intro e exn' heq
  cases heq
  exact h

theorem Checked.bind {x : M L α} {f : α → M L β} (hx : Checked x) (hf : ∀ a, Checked (f a)) :
    Checked (x >>= f) := by
  intro e exn h
  change (x e >>= fun r => f r.1 r.2) = _ at h
  cases hr : x e with
  | error exn' =>
    rw [hr] at h
    cases h
    exact hx e exn hr
  | ok r =>
    rw [hr] at h
    exact hf r.1 r.2 exn h

theorem Checked.get : Checked (get : M L (Emul L)) := by
  intro e exn h
  cases h

theorem Checked.set (e : Emul L) : Checked (set e : M L PUnit) := by
  intro e exn h
  cases h

theorem Checked.forM (ks : List ℕ) {f : ℕ → M L PUnit} (hf : ∀ k, Checked (f k)) :
    Checked (ks.forM f) := by
  induction ks with
  | nil => exact Checked.pure _
  | cons k ks ih => exact (hf k).bind fun _ => ih

theorem checked_rdl : Checked (rdl : M L (Option L)) := by
  apply Checked.get.bind
  intro e
  split_ifs
  · exact Checked.pure none
  · cases e.rest with
    | nil => exact (Checked.set _).bind fun _ => Checked.pure none
    | cons l ls => exact (Checked.set _).bind fun _ => Checked.pure (some l)

theorem checked_check (val : BitVec 64) (fmt : Format) (rdOnly : Bool) :
    Checked (check scan val fmt rdOnly) := by
  apply checked_rdl.bind
  intro l
  cases l with
  | none => exact Checked.pure 0
  | some l =>
    apply Checked.get.bind
    intro e
    cases scan fmt l with
    | none => exact Checked.throw trivial
    | some cmp =>
      dsimp only
      split_ifs
      · exact Checked.throw trivial
      · exact (Checked.set _).bind fun _ => Checked.pure cmp

theorem checked_checkVal (fmt : Format) (val : BitVec 64) : Checked (checkVal scan fmt val) := by
  apply Checked.get.bind
  intro e
  split_ifs
  · exact Checked.pure ()
  · exact (checked_check val fmt false).bind fun _ => Checked.pure ()

theorem checked_checkPair (txb : List Byte) (i j n : ℕ) : Checked (checkPair scan txb i j n) := by
  apply (checked_checkVal .tms _).bind
  intro _
  apply (checked_checkVal .tdi _).bind
  intro _
  exact Checked.modify _

theorem checked_playWord (bytes k : ℕ) : Checked (playWord scan bytes k) := by
  apply (checked_check 0 .tdo true).bind
  intro tdo
  exact Checked.modify _

theorem checked_checkVectors (txb : List Byte) (bytes : ℕ) :
    Checked (checkVectors scan txb bytes) := by
  apply (Checked.forM _ fun _ => checked_checkPair txb _ _ _).bind
  intro _
  split_ifs
  · exact checked_checkPair txb _ _ _
  · exact Checked.pure ()

theorem checked_playVector (bytes : ℕ) : Checked (playVector scan bytes) := by
  apply Checked.get.bind
  intro e
  split_ifs
  · exact Checked.pure ()
  · exact Checked.forM _ (checked_playWord bytes)

theorem checked_shift {txb : List Byte} {h : Header} {bits : ℕ} (hlen : getLen h = .ok bits)
    (hsize : emulWordSize + 2 * ((bits + 7) / 8) ≤ txb.length) : Checked (shift scan txb h) := by
  rw [shift, hlen]
  apply (checked_checkVal .lenBits _).bind
  intro _
  rw [if_neg (not_lt.mpr hsize)]
  apply (checked_checkVectors txb _).bind
  intro _
  apply (checked_playVector _).bind
  intro _
  exact Checked.pure _

end JtagDriverLoopBack

end XvcSupport
