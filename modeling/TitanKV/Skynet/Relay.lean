import TitanKV.Skynet.HttpParser

/-! The gateway hands the response of a backend on to the client. It writes what it reads as soon as the header block
is complete, and returns when it takes the response for complete or the backend closes the connection; the end is
looked for in the text of the header block and of the buffer. -/
namespace TitanKV.Skynet
open Minikv Searching

/-- `std::stoi`; the caller treats whatever is thrown alike. -/
def stoi (s : Bytes) : Option ℤ :=
  match number s with
  | none => none
  | some (negative,n) =>
    let v : ℤ := if negative then -n else n
    if -2^31≤v ∧ v<2^31 then some v else none

def isBlank (b : UInt8) : Bool := b = 32 ∨ b = 9

def contentLengthText : Bytes := ascii ['c','o','n','t','e','n','t','-','l','e','n','g','t','h',':']

def chunkedText : Bytes :=
  ascii ['t','r','a','n','s','f','e','r','-','e','n','c','o','d','i','n','g',':',' ','c','h','u','n','k','e','d']

def eventStreamText : Bytes :=
  ascii ['c','o','n','t','e','n','t','-','t','y','p','e',':',' ','t','e','x','t','/','e','v','e','n','t','-','s','t',
    'r','e','a','m']

/-- The first place of the text counts, wherever it is. -/
def parseContentLength (headers : Bytes) : ℤ :=
  match find contentLengthText (toLower headers) with
  | none => -1
  | some pos => (stoi ((headers.drop (pos+contentLengthText.length)).dropWhile isBlank)).getD (-1)

def headerHas (headersLower needle : Bytes) : Bool := (find needle headersLower).isSome

def headEnd : Bytes := [13,10,13,10]

/-- The last chunk without trailers, behind the end of a line. -/
def lastChunk : Bytes := [13,10,48,13,10,13,10]

def tmpSize : ℕ := 8192

def headLimit : ℕ := 64*1024

def streamLimit : ℕ := 256*1024

def kept : ℕ := 64

/-- The variables of the loop, and what the client has got. -/
structure Relay where
  buf : Bytes := []
  headersDone : Bool := false
  contentLength : ℤ := -1
  chunked : Bool := false
  eventStream : Bool := false
  bodyStart : ℕ := 0
  alreadySent : ℕ := 0
  written : Bytes := []
  deriving DecidableEq,Repr

/-- One turn of the loop: whether the gateway runs, what was read (nothing at the end or after an error) and whether
the client takes what is written. -/
structure Turn where
  running : Bool := true
  data : Bytes
  writable : Bool := true
  deriving DecidableEq,Repr

namespace Relay

/-- `flush_new`, with its result. -/
def flush (r : Relay) (writable : Bool) : Bool × Relay :=
  if r.buf.length≤r.alreadySent then (true,r)
  else if writable then (true,{ r with written := r.written ++ r.buf.drop r.alreadySent })
  else (false,r)

def lengthReached (r : Relay) : Bool := 0≤r.contentLength ∧ r.bodyStart+r.contentLength.toNat≤r.buf.length

def lastChunkSeen (r : Relay) : Bool := r.chunked ∧ (find lastChunk r.buf).isSome

def readHead (r : Relay) (he : ℕ) : Relay :=
  { r with
    headersDone := true
    bodyStart := he+4
    contentLength := parseContentLength (r.buf.take he)
    chunked := headerHas (toLower (r.buf.take he)) chunkedText
    eventStream := headerHas (toLower (r.buf.take he)) eventStreamText }

/-- Writes what is new; `none` stands for a client that does not take it. -/
def pass (r : Relay) (writable : Bool) : Option Relay :=
  if (r.flush writable).1 then some { (r.flush writable).2 with alreadySent := r.buf.length } else none

lemma pass_of_lt {r : Relay} (h : r.alreadySent<r.buf.length) :
    r.pass true = some { r with written := r.written ++ r.buf.drop r.alreadySent, alreadySent := r.buf.length } := by
  simp [pass,flush,Nat.not_le.mpr h]

/-- Beyond its limit an event stream keeps the end of the buffer only. -/
def trim (r : Relay) : Relay :=
  if r.eventStream = true ∧ streamLimit<r.buf.length then
    { r with buf := r.buf.drop (r.buf.length-kept), alreadySent := kept, bodyStart := 0 }
  else r

def append (r : Relay) (data : Bytes) : Relay := { r with buf := r.buf ++ data }

/-- The result with which the loop is left, or its next state. -/
def turn (r : Relay) (t : Turn) : Bool × Relay ⊕ Relay :=
  if t.running = false then .inl (r.flush t.writable)
  else if t.data = [] then
    .inl ((r.headersDone && (r.lengthReached || r.lastChunkSeen)) || (0 < r.alreadySent || r.buf ≠ []),r)
  else
    let r := r.append t.data
    if r.headersDone = false then
      match find headEnd r.buf with
      | none => if headLimit<r.buf.length then .inl (false,r) else .inr r
      | some he =>
        match (r.readHead he).pass t.writable with
        | none => .inl (false,r.readHead he)
        | some r => if r.lengthReached || r.lastChunkSeen then .inl (true,r) else .inr r
    else
      match r.pass t.writable with
      | none => .inl (false,r)
      | some r => if r.lengthReached || r.lastChunkSeen then .inl (true,r) else .inr r.trim

/-- The loop; without a further turn it waits. -/
def relayResponse (r : Relay) : List Turn → Option Bool × Relay
  | [] => (none,r)
  | t::ts =>
    match r.turn t with
    | .inl left => (some left.1,left.2)
    | .inr r => r.relayResponse ts

end Relay
end TitanKV.Skynet
