import XvcSupport.Reformat

/-!
# The XVC connection

`XvcConn::run` over a TCP stream that is cut into `read()` results and partial
`write()`s at will.  The receive buffer with its pointer, fill level and spill-over
area is modelled as it is; the driver is a function of the calls it has seen.
-/

namespace XvcSupport.XvcConn

open JtagDriver

/-- A call of the driver with the octets its pointers lead to. -/
inductive DrvCall
  | query
  | getMaxVectorSize
  | setPeriodNs (requestedPeriod : BitVec 32)
  | sendVectors (bits : ℕ) (tms tdi : List Byte)
deriving DecidableEq, Repr

/-- A driver, as a function of the calls up to the present one: it throws, or returns a
number and stores octets through its TDO pointer. -/
abbrev Behaviour := List DrvCall → Except Err (ℕ × List Byte)

/-- The transmit side of the connection: the calls made, `txb_` and `tl_`, the octets
sent, and the number of messages served. -/
structure Tx where
  calls : List DrvCall
  txb : Mem
  tl : ℕ
  sent : List Byte
  served : ℕ

def Tx.start : Tx where
  calls := []
  txb := fun _ => 0
  tl := 0
  sent := []
  served := 0

def Tx.call (t : Tx) (drv : Behaviour) (c : DrvCall) : Except Err (ℕ × List Byte) × Tx :=
  (drv (t.calls ++ [c]), { t with calls := t.calls ++ [c] })

/-- The octets of an ASCII text. -/
def ascii (s : String) : List Byte := s.toList.map fun c => BitVec.ofNat 8 c.toNat

/-- `sprintf` to the start of `txb_`, with the terminating zero. -/
def Tx.print (t : Tx) (s : String) : Tx :=
  { t with
    txb := memcpy t.txb 0 (memOf (ascii s ++ [0])) 0 ((ascii s).length + 1)
    tl := (ascii s).length }

/-- The `getinfo:` branch. -/
def Tx.getinfo (t : Tx) (drv : Behaviour) (maxVecLen : ℕ) : Progress × Tx :=
  match t.call drv .query with
  | (.error e, t) => (.threw e, t)
  | (.ok _, t) => (.returned, t.print ("xvcServer_v1.0:" ++ toString maxVecLen ++ "\n"))

/-- The `settck:` branch; `m` is the memory from `rp_` on. -/
def Tx.settck (t : Tx) (drv : Behaviour) (m : Mem) : Progress × Tx :=
  match t.call drv (.setPeriodNs (packLE 32 (slice m 7 4))) with
  | (.error e, t) => (.threw e, t)
  | (.ok (newPeriod, _), t) =>
    let octets := unpackLE 4 (BitVec.ofNat 32 newPeriod)
    (.returned, { t with txb := memcpy t.txb 0 (memOf octets) 0 4, tl := 4 })

/-- The number of bits announced by a `shift:` message. -/
def announced (m : Mem) : ℕ := (packLE 32 (slice m 6 4)).toNat

/-- The call of `sendVectors` in the chunk loop, the vectors of `bytes` octets at `m`. -/
def Tx.sendVectors (drv : Behaviour) (m : Mem) (bytes : ℕ) (t : Tx) (bits off : ℕ) :
    Option Err × Tx :=
  match t.call drv (.sendVectors bits (slice m off (bytesCeil bits))
      (slice m (bytes + off) (bytesCeil bits))) with
  | (.error e, t) => (some e, t)
  | (.ok (_, tdo), t) => (none, { t with txb := memcpy t.txb off (memOf tdo) 0 tdo.length })

/-- The `shift:` branch past the header.  The loop gets one round more than it has bits;
only a request that wraps around needs more. -/
def Tx.shift (t : Tx) (drv : Behaviour) (sup bits : ℕ) (m : Mem) : Progress × Tx :=
  match XvcConn.shift (Tx.sendVectors drv m (vecBytes bits)) sup (bits + 1) bits t with
  | (.returned, t) => (.returned, { t with tl := vecBytes bits })
  | r => r

/-- What the kernel makes of a `write()`: it takes at most this many octets plus one, it returns no
positive number, or the peer has closed and SIGPIPE is raised, which has its default action. -/
inductive Put
  | takes (n : ℕ)
  | fails
  | sigPipe
deriving DecidableEq, Repr

/-- How the kernel cuts the stream: the `i`-th `read()` moves at most this many octets plus one, and
what becomes of the `i`-th `write()`. -/
structure Io where
  reads : ℕ → ℕ
  writes : ℕ → Put

/-- The client takes all that is written. -/
def Io.Sends (io : Io) : Prop := ∀ i, ∃ n, io.writes i = .takes n

/-- The connection.  `rest` is what the client has still to deliver, `peak` the end of the
highest area of `rxb_` handed to `read()` so far. -/
structure Conn extends Tx where
  rxb : Mem
  rp : ℕ
  rl : ℕ
  rest : List Byte
  nReads : ℕ
  nWrites : ℕ
  peak : ℕ

/-- The memory from `rp_` on. -/
def Conn.at (c : Conn) : Mem := fun i => c.rxb (c.rp + i)

/-- `read(rxb_ + p, k)`: at least one octet unless the client has closed. -/
def Conn.read (c : Conn) (io : Io) (p k : ℕ) : ℕ × Conn :=
  let got := min (io.reads c.nReads + 1) (min k c.rest.length)
  (got,
    { c with
      rxb := memcpy c.rxb p (memOf c.rest) 0 got
      rest := c.rest.drop got
      nReads := c.nReads + 1
      peak := max c.peak (p + k) })

def readFailed : Err := .sysErr "Unable to read from socket"

/-- The loop of `fill`, with `k` octets missing at `p`. -/
def Conn.fillLoop (c : Conn) (io : Io) (k p : ℕ) : Progress × Conn :=
  if k = 0 then (.returned, c)
  else if (c.read io p k).1 = 0 then (.threw readFailed, (c.read io p k).2)
  else (c.read io p k).2.fillLoop io (k - (c.read io p k).1) (p + (c.read io p k).1)
termination_by k

def Conn.fill (c : Conn) (io : Io) (n : ℕ) : Progress × Conn :=
  if n ≤ c.rl then (.returned, c)
  else
    match c.fillLoop io (n - c.rl) (c.rp + c.rl) with
    | (.returned, c) => (.returned, { c with rl := n })
    | r => r

def Conn.bump (c : Conn) (n : ℕ) : Conn :=
  { c with
    rp := if c.rl - n = 0 then 0 else c.rp + n
    rl := c.rl - n }

def sendFailed : Err := .sysErr "Unable to send from socket"

/-- The loop of `flush`, with `tl` octets left from `p` on. -/
def Conn.flushLoop (c : Conn) (io : Io) (tl p : ℕ) : Progress × Conn :=
  if tl = 0 then (.returned, { c with tl := 0 })
  else
    match io.writes c.nWrites with
    | .takes n =>
      let put := min (n + 1) tl
      { c with
        sent := c.sent ++ slice c.txb p put
        nWrites := c.nWrites + 1 : Conn }.flushLoop io (tl - put) (p + put)
    | .fails => (.threw sendFailed, { c with tl := tl, nWrites := c.nWrites + 1 })
    | .sigPipe => (.killed, { c with tl := tl, nWrites := c.nWrites + 1 })
termination_by tl

def Conn.flush (c : Conn) (io : Io) : Progress × Conn := c.flushLoop io c.tl 0

/-- Go on unless something was thrown or the process is killed. -/
def andThen {σ : Type*} (r : Progress × σ) (k : σ → Progress × σ) : Progress × σ :=
  match r with
  | (.returned, s) => k s
  | r => r

def Conn.lift (c : Conn) (r : Progress × Tx) : Progress × Conn := (r.1, { c with toTx := r.2 })

/-- The `-M` option, an `unsigned`. -/
structure Config where
  maxVecLen : ℕ
  maxVecLen_lt : maxVecLen < 2 ^ 32

/-- `chunk_`; `rxb_` has twice this size. -/
def Config.chunk (cfg : Config) : ℕ := u64 (2 * cfg.maxVecLen + 128)

theorem Config.chunk_eq (cfg : Config) : cfg.chunk = 2 * cfg.maxVecLen + 128 := by
  have := cfg.maxVecLen_lt
  unfold Config.chunk u64
  omega

def tooBig : Err := .protoErr "Requested bit vector length too big"

def unsupported : Err := .protoErr "unsupported message received"

section Run

variable (cfg : Config) (drv : Behaviour) (io : Io) (sup : ℕ)

/-- The body of the inner loop up to `flush`. -/
def Conn.message (c : Conn) : Progress × Conn :=
  andThen (c.fill io 2) fun c =>
    if slice c.at 0 2 = ascii "ge" then
      andThen (c.fill io 8) fun c =>
        andThen (c.lift (c.toTx.getinfo drv cfg.maxVecLen)) fun c => (.returned, c.bump 8)
    else if slice c.at 0 2 = ascii "se" then
      andThen (c.fill io 11) fun c =>
        andThen (c.lift (c.toTx.settck drv c.at)) fun c => (.returned, c.bump 11)
    else if slice c.at 0 2 = ascii "sh" then
      andThen (c.fill io 10) fun c =>
        let bits := announced c.at
        if vecBytes bits > cfg.maxVecLen then (.threw tooBig, c)
        else
          andThen ((c.bump 10).fill io (2 * vecBytes bits)) fun c =>
            andThen (c.lift (c.toTx.shift drv sup bits c.at)) fun c =>
              (.returned, c.bump (2 * vecBytes bits))
    else (.threw unsupported, c)

/-- The `read()` of the outer loop, made when the inner loop has used up all octets. -/
def Conn.readChunk (c : Conn) : Progress × Conn :=
  if c.rl = 0 then
    if (c.read io c.rp cfg.chunk).1 = 0 then
      (.threw readFailed, (c.read io c.rp cfg.chunk).2)
    else (.returned, { (c.read io c.rp cfg.chunk).2 with rl := (c.read io c.rp cfg.chunk).1 })
  else (.returned, c)

def Conn.turn (c : Conn) : Progress × Conn :=
  andThen (c.readChunk cfg io) fun c =>
    andThen (c.message cfg drv io sup) fun c =>
      andThen (c.flush io) fun c => (.returned, { c with served := c.served + 1 })

def Conn.turns : ℕ → Conn → Progress × Conn
  | 0, c => (.running, c)
  | n + 1, c => andThen (c.turn cfg drv io sup) (Conn.turns n)

/-- `allocBufs`, as far as the driver goes: `supVecLen_` or an exception. -/
def Tx.allocBufs (t : Tx) : Except Err ℕ × Tx :=
  match t.call drv .query with
  | (.error e, t) => (.error e, t)
  | (.ok (tgtVecLen, _), t) =>
    match t.call drv .getMaxVectorSize with
    | (.error e, t) => (.error e, t)
    | (.ok (drvMax, _), t) => (.ok (supVecLen cfg.maxVecLen tgtVecLen drvMax), t)

end Run

/-- The connection once its buffers are allocated. -/
def Conn.start (t : Tx) (stream : List Byte) : Conn where
  toTx := t
  rxb := fun _ => 0
  rp := 0
  rl := 0
  rest := stream
  nReads := 0
  nWrites := 0
  peak := 0

/-- `run()` on a client's stream, for a number of messages. -/
def run (cfg : Config) (drv : Behaviour) (io : Io) (stream : List Byte) (n : ℕ) :
    Progress × Conn :=
  match Tx.start.allocBufs cfg drv with
  | (.error e, t) => (.threw e, Conn.start t stream)
  | (.ok sup, t) => Conn.turns cfg drv io sup n (Conn.start t stream)

end XvcSupport.XvcConn
