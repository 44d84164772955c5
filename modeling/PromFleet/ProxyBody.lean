-- The way of a response body from the Prometheus of a spoke to the caller of the
-- hub's proxy: the capped body of `promclient`, the chunks that the spoke streams, the
-- reader of the hub's end of the tunnel, and the capped read of `Proxy.Do`.
import PromFleet.Identity

namespace prom_fleet.proxybody

/-! ## The upstream -/

/-- An error of a read: its text, and whether it wraps `io.EOF` without being it. -/
structure ReadErr where
  text : String
  wrapsEOF : Bool
  deriving DecidableEq

/-- How a byte stream ends. -/
inductive Ending where
  | eof
  | failed (e : ReadErr)
  deriving DecidableEq

/-- What is left of an upstream body: the pieces that its reads bring, and its end. An
eager one reports its end together with the last bytes. -/
structure Upstream where
  pieces : List Bytes
  ending : Ending
  eager : Bool

/-- `src.Read` with a buffer of `p` bytes. -/
def Upstream.read (p : Nat) (u : Upstream) : (Bytes × Option Ending) × Upstream :=
  match u.pieces with
  | [] => (([], some u.ending), u)
  | x :: xs =>
    if x.length ≤ p then
      ((x, if xs.isEmpty && u.eager then some u.ending else none), { u with pieces := xs })
    else ((x.take p, none), { u with pieces := x.drop p :: xs })

/-! ## The body of `promclient` -/

/-- The errors that a read of the spoke's body can give. -/
inductive BodyErr where
  | eof
  | tooLarge
  | failed (e : ReadErr)
  deriving DecidableEq

/-- `errors.Is(err, io.EOF)`. -/
def BodyErr.isEOF : BodyErr → Bool
  | .eof => true
  | .tooLarge => false
  | .failed e => e.wrapsEOF

/-- `err.Error()`. -/
def BodyErr.text : BodyErr → String
  | .eof => "EOF"
  | .tooLarge => "promclient: response exceeded the byte cap: tunnel: response exceeded byte budget"
  | .failed e => e.text

structure LimitedBody where
  src : Upstream
  limit : Nat
  n : Nat
  truncated : Bool
  readErr : Option ReadErr

/-- `newLimitedBody` for the caps of the request and of the client. -/
def newLimitedBody (src : Upstream) (budget cap : Nat) : LimitedBody :=
  { src := src, limit := min budget cap, n := 0, truncated := false, readErr := none }

/-- `limitedBody.Read` with a buffer of `p` bytes. -/
def LimitedBody.read (p : Nat) (b : LimitedBody) : (Bytes × Option BodyErr) × LimitedBody :=
  if b.truncated then (([], some .tooLarge), b)
  else
    match b.readErr with
    | some e => (([], some (.failed e)), b)
    | none =>
      -- one byte past the cap tells a body at the cap from one above it
      let p := if b.limit - b.n < p then b.limit - b.n + 1 else p
      let r := b.src.read p
      let data := r.1.1
      let excess := b.n + data.length - b.limit
      let kept := data.take (data.length - excess)
      let b := { b with src := r.2, n := b.n + kept.length }
      if 0 < excess then ((kept, some .tooLarge), { b with truncated := true })
      else
        match r.1.2 with
        | none => ((kept, none), b)
        | some .eof => ((kept, some .eof), b)
        | some (.failed e) => ((kept, some (.failed e)), { b with readErr := some e })

/-- The error in `limitedBody.trailer`. -/
def LimitedBody.trailerErr (b : LimitedBody) : Option BodyErr :=
  if b.truncated then some .tooLarge else b.readErr.map .failed

/-! ## The spoke's end of the tunnel -/

/-- What `streamBody` leaves: the chunks that it has sent, its answers and the body. -/
structure Streamed where
  chunks : List Bytes
  truncated : Bool
  err : Option BodyErr
  body : LimitedBody

/-- An error other than the end of the stream. -/
def notEOF (err : Option BodyErr) : Option BodyErr := err.filter fun e => !e.isEOF

/-- `spokeServer.streamBody`, for so many turns of its loop. -/
def streamBody (chunkBytes budget : Nat) :
    Nat → LimitedBody → List Bytes → Nat → Option Streamed
  | 0, _, _, _ => none
  | turns + 1, body, chunks, sent =>
    if budget - sent = 0 then
      let r := body.read 1
      some { chunks := chunks, truncated := !r.1.1.isEmpty, err := notEOF r.1.2, body := r.2 }
    else
      let r := body.read (min chunkBytes (budget - sent))
      let chunks := if r.1.1.isEmpty then chunks else chunks ++ [r.1.1]
      match r.1.2 with
      | none => streamBody chunkBytes budget turns r.2 chunks (sent + r.1.1.length)
      | some e => some { chunks := chunks, truncated := false, err := notEOF (some e), body := r.2 }

/-- `fleetv1.ResponseTrail`, as far as the hub decides on it. -/
structure Trail where
  truncated : Bool
  error : String
  deriving DecidableEq

/-- `fleetv1.ProxyChunk`. -/
inductive Chunk where
  | head
  | data (b : Bytes)
  | trail (t : Trail)
  | empty
  deriving DecidableEq

/-- The trail that `spokeServer.Proxy` sends. -/
def trailOf (s : Streamed) : Trail :=
  let fromBody := (s.body.trailerErr.map BodyErr.text).getD ""
  { truncated := s.truncated || s.body.truncated
    error := if fromBody = "" then (s.err.map BodyErr.text).getD "" else fromBody }

/-- The reads that a source can still answer before its end. -/
def Upstream.size (u : Upstream) : Nat := u.pieces.length + u.pieces.flatten.length

/-- `spokeServer.Proxy` after the head: what it sends for the answer of the upstream. -/
def proxyStream (chunkBytes budget cap : Nat) (u : Upstream) : Option (List Chunk) :=
  (streamBody chunkBytes budget (u.size + 2) (newLimitedBody u budget cap) [] 0).map fun s =>
    s.chunks.map .data ++ [.trail (trailOf s)]

/-! ## The hub's end of the tunnel -/

/-- The errors that a read of the hub's body can give. -/
inductive TunnelErr where
  | eof
  | tooLarge
  | upstream (text : String)
  | protocol
  deriving DecidableEq

/-- `bodyReader`. It is finished when it has its last error. -/
structure BodyReader where
  stream : List Chunk
  budget : Nat
  pending : Bytes
  received : Nat
  term : Option TunnelErr
  trailTruncated : Bool
  trailErr : Option TunnelErr

def newBodyReader (stream : List Chunk) (budget : Nat) : BodyReader :=
  { stream := stream, budget := budget, pending := [], received := 0, term := none
    trailTruncated := false, trailErr := none }

/-- `bodyReader.absorbTrail`, when the stream ends with an OK status. -/
def BodyReader.absorbTrail (t : Trail) (b : BodyReader) : BodyReader :=
  let b := { b with trailTruncated := t.truncated }
  if t.error ≠ "" then
    { b with trailErr := some (.upstream t.error), term := some (.upstream t.error) }
  else if t.truncated then { b with term := some .tooLarge }
  else { b with term := some .eof }

/-- `bodyReader.pull` of a chunk. -/
def BodyReader.pull (c : Chunk) (b : BodyReader) : BodyReader :=
  match c with
  | .data data =>
    if data.isEmpty then b
    else if b.budget - b.received < data.length then
      { b with pending := data.take (b.budget - b.received), received := b.budget
               trailTruncated := true, term := some .tooLarge }
    else { b with pending := data, received := b.received + data.length }
  | .trail t => b.absorbTrail t
  | .head => { b with term := some .protocol }
  | .empty => { b with term := some .protocol }

/-- A read can be answered. -/
def BodyReader.ready (b : BodyReader) : Bool := !b.pending.isEmpty || b.term.isSome

/-- The pulls of a read: until there is data, or an end. A stream that ends before its
trail breaks the protocol. -/
def BodyReader.fill : List Chunk → BodyReader → BodyReader
  | [], b => if b.ready then { b with stream := [] }
    else { b with stream := [], term := some .protocol }
  | c :: rest, b =>
    if b.ready then { b with stream := c :: rest } else BodyReader.fill rest (b.pull c)

/-- `bodyReader.Read` with a buffer of `p` bytes. -/
def BodyReader.read (p : Nat) (b : BodyReader) : (Bytes × Option TunnelErr) × BodyReader :=
  let b := if p = 0 then b else BodyReader.fill b.stream b
  if b.pending.isEmpty then (([], b.term), b)
  else ((b.pending.take p, none), { b with pending := b.pending.drop p })

/-! ## The proxy -/

structure CapReader where
  r : BodyReader
  remaining : Nat
  hit : Bool

def CapReader.read (p : Nat) (c : CapReader) : (Bytes × Option TunnelErr) × CapReader :=
  if c.remaining = 0 then (([], some .eof), { c with hit := true })
  else
    let r := c.r.read (min p c.remaining)
    (r.1, { c with r := r.2, remaining := c.remaining - r.1.1.length })

/-- `io.ReadAll`, for so many reads, the next one with a buffer of `sizes i` bytes. -/
def readAll (sizes : Nat → Nat) :
    Nat → Nat → CapReader → Bytes → Option ((Bytes × Option TunnelErr) × CapReader)
  | 0, _, _, _ => none
  | turns + 1, i, c, acc =>
    let r := c.read (sizes i)
    let acc := acc ++ r.1.1
    match r.1.2 with
    | none => readAll sizes turns (i + 1) r.2 acc
    | some .eof => some ((acc, none), r.2)
    | some e => some ((acc, some e), r.2)

/-- `readCapped` of a body that is not compressed. -/
def readCapped (sizes : Nat → Nat) (maxBytes : Nat) (body : BodyReader) :
    Option (Except TunnelErr (Bytes × Bool) × BodyReader) :=
  (readAll sizes (maxBytes + 2) 0 { r := body, remaining := maxBytes + 1, hit := false } []).map
    fun ((b, rerr), c) =>
      if maxBytes < b.length then (.ok (b.take maxBytes, true), c.r)
      else
        match rerr with
        | none => (.ok (b, false), c.r)
        | some e => (if c.hit || e = .tooLarge then .ok (b, true) else .error e, c.r)

/-- The sentinels that the error of `Proxy.Do` wraps. -/
inductive DoErr where
  | tooLarge
  | upstream
  deriving DecidableEq

/-- `Proxy.wrapCallError`, for the errors of a body that no context has cut. -/
def wrapCallError : TunnelErr → DoErr
  | .tooLarge => .tooLarge
  | _ => .upstream

/-- `promproxy.Result`, as far as it is about the body. -/
structure Result where
  body : Bytes
  truncated : Bool
  deriving DecidableEq

/-- The end of `Proxy.Do`, from the answer of the session on. -/
def doBody (sizes : Nat → Nat) (maxBytes : Nat) (body : BodyReader) :
    Option (Option Result × Option DoErr) :=
  (readCapped sizes maxBytes body).map fun (r, reader) =>
    match r with
    | .error e => (none, some (wrapCallError e))
    | .ok (b, truncated) =>
      let cut := truncated || reader.trailTruncated
      match if truncated then none else reader.trailErr with
      | some e => (none, some (wrapCallError e))
      | none => (some { body := b, truncated := cut }, if cut then some .tooLarge else none)

/-- `Proxy.Do` over the tunnel for an answer of the upstream: the hub asks for at most
`budget` bytes, the spoke's client has the cap `cap`. -/
def proxyDo (sizes : Nat → Nat) (chunkBytes budget cap : Nat) (u : Upstream) :
    Option (Option Result × Option DoErr) :=
  (proxyStream chunkBytes budget cap u).bind fun stream =>
    doBody sizes budget (newBodyReader stream budget)

end prom_fleet.proxybody
