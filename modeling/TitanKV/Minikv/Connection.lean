import TitanKV.Library.Streaming
import TitanKV.Minikv.Protocol

/-! A client connection. `onReadable` collects the bytes of the socket and cuts them into request frames; without a
business pool it calls the handler itself, with one it has one request at a time worked on by the pool. -/
namespace TitanKV.Minikv
open Parsing List RequestHeader

def badMagic (buf : Bytes) : Bool :=
  size≤buf.length ∧ (ofBytes buf).magic ≠ kProtocolMagic

def nextFrame (buf : Bytes) : Option (Bytes × Bytes) :=
  if buf.length<size then none
  else
    let hdr := ofBytes buf
    if hdr.magic ≠ kProtocolMagic then none
    else if buf.length<hdr.totalSize then none
    else some (buf.take hdr.totalSize,buf.drop hdr.totalSize)

/-- What `::read` returns. -/
inductive ReadResult
  | data (chunk : Bytes)
  | eof
  | again
  | failed
  deriving DecidableEq, Repr

/-- A task in the business pool: submitted, or past its test of `close_` and about to call the handler. -/
inductive Task
  | submitted (rawData : Bytes)
  | checked (rawData : Bytes)
  deriving DecidableEq, Repr

def Task.rawData : Task → Bytes
  | submitted raw => raw
  | checked raw => raw

/-- A connection and what is on its way: the tasks in the pool, and the responses that functors queued in the loop
    hold. `state` is what the handler works on. `handled` records its calls with their responses, `appended` the
    responses that went into `writeBuf`, and `sent` the bytes that the socket took. -/
structure Connection (σ : Type*) where
  readBuf : Bytes
  writeBuf : Bytes
  close : Bool
  inFlight : Bool
  tasks : List Task
  pending : List Bytes
  state : σ
  handled : List (Bytes × Bytes)
  appended : List Bytes
  sent : Bytes

namespace Connection
variable {σ : Type*}

def fresh (state : σ) : Connection σ := ⟨[],[],false,false,[],[],state,[],[],[]⟩

/-- `accept` is what `::write` returns for the bytes that it is offered. -/
def writeLoop (accept : Bytes → ℤ) : ℕ → Connection σ → Connection σ
  | 0,c => c
  | fuel+1,c =>
    if c.writeBuf = [] then c
    else
      let n := accept c.writeBuf
      if 0<n then
        writeLoop accept fuel
          { c with writeBuf := c.writeBuf.drop n.toNat, sent := c.sent ++ c.writeBuf.take n.toNat }
      else c

/-- Every call of `::write` that succeeds takes a byte. -/
def onWritable (accept : Bytes → ℤ) (c : Connection σ) : Connection σ := writeLoop accept c.writeBuf.length c

def append (response : Bytes) (c : Connection σ) : Connection σ :=
  { c with writeBuf := c.writeBuf++response, appended := c.appended ++ [response] }

def call (handler : Bytes → σ → Bytes × σ) (rawData : Bytes) (c : Connection σ) : Connection σ :=
  { c with state := (handler rawData c.state).2, handled := c.handled ++ [(rawData,(handler rawData c.state).1)] }

def tryDispatch (c : Connection σ) : Connection σ :=
  if c.close ∨ c.inFlight then c
  else if c.readBuf.length<size then c
  else
    let hdr := ofBytes c.readBuf
    if hdr.magic ≠ kProtocolMagic then { c with close := true }
    else if c.readBuf.length<hdr.totalSize then c
    else
      { c with
        readBuf := c.readBuf.drop hdr.totalSize
        inFlight := true
        tasks := c.tasks ++ [.submitted (c.readBuf.take hdr.totalSize)] }

/-- The loop of `onReadable` without a pool; the flag says whether it came to its end or returned at a bad magic
    number. -/
def serveLoop (handler : Bytes → σ → Bytes × σ) : ℕ → Connection σ → Connection σ × Bool
  | 0,c => (c,true)
  | fuel+1,c =>
    if c.readBuf.length<size then (c,true)
    else
      let hdr := ofBytes c.readBuf
      if hdr.magic ≠ kProtocolMagic then ({ c with close := true },false)
      else if c.readBuf.length<hdr.totalSize then (c,true)
      else
        let rawData := c.readBuf.take hdr.totalSize
        let c := { c with readBuf := c.readBuf.drop hdr.totalSize }
        serveLoop handler fuel ((c.call handler rawData).append (handler rawData c.state).1)

/-- `onReadable` without a pool. Every frame takes a header off the buffer, so its length bounds the loop. -/
def onReadableSync (handler : Bytes → σ → Bytes × σ) (accept : Bytes → ℤ) (r : ReadResult) (c : Connection σ) :
    Connection σ :=
  match r with
  | .again => c
  | .failed => { c with close := true }
  | .eof => { c with close := true }
  | .data chunk =>
    let c := { c with readBuf := c.readBuf ++ chunk }
    let r := serveLoop handler (c.readBuf.length+1) c
    if r.2 then r.1.onWritable accept else r.1

def onReadablePool (r : ReadResult) (c : Connection σ) : Connection σ :=
  match r with
  | .again => c
  | .failed => { c with close := true }
  | .eof => { c with close := true }
  | .data chunk => { c with readBuf := c.readBuf ++ chunk }.tryDispatch

end Connection

lemma nextFrame_eq_some {buf frame rest : Bytes} (h : nextFrame buf = some (frame,rest)) :
    size≤buf.length ∧ (ofBytes buf).magic = kProtocolMagic ∧
      (ofBytes buf).totalSize≤buf.length ∧
      frame = buf.take (ofBytes buf).totalSize ∧ rest = buf.drop (ofBytes buf).totalSize := by
  rw [nextFrame] at h
  dsimp only at h
  split_ifs at h with hlen hmagic htotal
  obtain ⟨rfl,rfl⟩ := Prod.mk.inj (Option.some.inj h)
  exact ⟨by omega,by simpa using hmagic,by omega,rfl,rfl⟩

lemma nextFrame_consumes : Consumes nextFrame := by
  intro s a rest h
  obtain ⟨hlen,-,htotal,-,rfl⟩ := nextFrame_eq_some h
  have hsize : size = 11 := rfl
  rw [length_drop]
  rw [RequestHeader.totalSize] at htotal ⊢
  omega

/-- A frame is recognised by its own header. -/
lemma nextFrame_cuts : Cuts nextFrame := by
  intro s a rest h
  obtain ⟨hlen,hmagic,htotal,rfl,rfl⟩ := nextFrame_eq_some h
  refine ⟨(take_append_drop _ s).symm,?_⟩
  intro t
  have hsize : size≤(ofBytes s).totalSize := by
    rw [RequestHeader.totalSize]
    omega
  have hframe : (s.take (ofBytes s).totalSize).length = (ofBytes s).totalSize :=
    length_take_of_le htotal
  have hhdr : ofBytes (s.take (ofBytes s).totalSize ++ t) = ofBytes s := by
    rw [ofBytes_append (by omega),
      ← ofBytes_append (by omega) (s.drop (ofBytes s).totalSize),take_append_drop]
  rw [nextFrame,hhdr]
  rw [if_neg (by rw [length_append]; omega),if_neg (by simpa using hmagic),
    if_neg (by rw [length_append]; omega),take_left' hframe,drop_left' hframe]

def framesOf (stream : Bytes) : List Bytes := many nextFrame stream

def restOf (stream : Bytes) : Bytes := remainder nextFrame stream

lemma framesOf_append (s t : Bytes) : framesOf (s++t) = framesOf s ++ framesOf (restOf s ++ t) :=
  many_append nextFrame_consumes nextFrame_cuts.stable s t

lemma restOf_append (s t : Bytes) : restOf (s++t) = restOf (restOf s ++ t) :=
  remainder_append nextFrame_consumes nextFrame_cuts.stable s t

lemma flatten_framesOf (s : Bytes) : (framesOf s).flatten ++ restOf s = s :=
  flatten_many_append nextFrame_consumes nextFrame_cuts s

lemma nextFrame_encodeRequest (cmd : UInt8) {key value : Bytes} (hkey : key.length<2^32)
    (hvalue : value.length<2^32) (rest : Bytes) :
    nextFrame (encodeRequest cmd key value ++ rest) = some (encodeRequest cmd key value,rest) := by
  have hlen := length_encodeRequest cmd key value
  have htotal : (mk kProtocolMagic cmd key.length value.length).totalSize =
      (encodeRequest cmd key value).length := hlen.symm
  rw [nextFrame,ofBytes_encodeRequest cmd hkey hvalue,if_neg (by rw [length_append]; omega)]
  rw [if_neg (by simp),htotal,if_neg (by simp),take_left,drop_left]

variable {buf : Bytes}

lemma badMagic_append (h : badMagic buf = true) (rest : Bytes) : badMagic (buf++rest) = true := by
  rw [badMagic,decide_eq_true_eq] at h ⊢
  rw [ofBytes_append h.1,length_append]
  exact ⟨by omega,h.2⟩

lemma nextFrame_of_badMagic (h : badMagic buf = true) : nextFrame buf = none := by
  rw [badMagic,decide_eq_true_eq] at h
  rw [nextFrame,if_neg (by omega)]
  rw [if_pos h.2]

lemma nextFrame_eq_none (h : nextFrame buf = none) :
    (badMagic buf = true ∧ size≤buf.length ∧ (ofBytes buf).magic ≠ kProtocolMagic) ∨
    (badMagic buf = false ∧ buf.length<size) ∨
    (badMagic buf = false ∧ size≤buf.length ∧ (ofBytes buf).magic = kProtocolMagic ∧
      buf.length<(ofBytes buf).totalSize) := by
  rw [nextFrame] at h
  dsimp only at h
  rw [badMagic,decide_eq_true_eq,decide_eq_false_iff_not]
  split_ifs at h with hlen hmagic htotal
  · exact .inr (.inl ⟨fun hbad => by omega,hlen⟩)
  · exact .inl ⟨⟨by omega,hmagic⟩,by omega,hmagic⟩
  · exact .inr (.inr ⟨fun hbad => hmagic hbad.2,by omega,not_not.mp hmagic,htotal⟩)

lemma ite_of_nextFrame_none {α : Type*} (h : nextFrame buf = none) (waits closes serves : α) :
    (if buf.length < size then waits
      else if (ofBytes buf).magic ≠ kProtocolMagic then closes
      else if buf.length<(ofBytes buf).totalSize then waits
      else serves) = if badMagic buf then closes else waits := by
  rcases nextFrame_eq_none h with ⟨hbad,hlen,hmagic⟩ | ⟨hbad,hlen⟩ | ⟨hbad,hlen,hmagic,htotal⟩
  · rw [if_neg (by omega),if_pos hmagic,if_pos hbad]
  · rw [if_pos hlen,if_neg (by simp [hbad])]
  · rw [if_neg (by omega),if_neg (by simpa using hmagic),if_pos htotal,if_neg (by simp [hbad])]

lemma framesOf_append_of_badMagic {s : Bytes} (h : badMagic (restOf s) = true) (t : Bytes) :
    framesOf (s++t) = framesOf s ∧ restOf (s++t) = restOf s ++ t := by
  have hnone := nextFrame_of_badMagic (badMagic_append h t)
  rw [framesOf_append,restOf_append]
  exact ⟨by rw [framesOf,framesOf,many_of_none hnone,append_nil],remainder_of_none hnone⟩

namespace Connection
variable {σ : Type*} {handler : Bytes → σ → Bytes × σ}

variable {c : Connection σ}

variable {rawData rest : Bytes}

lemma serveLoop_of_some {fuel : ℕ}
    (h : nextFrame c.readBuf = some (rawData,rest)) : serveLoop handler (fuel+1) c =
      serveLoop handler fuel
        (({ c with readBuf := rest }.call handler rawData).append (handler rawData c.state).1) := by
  obtain ⟨hlen,hmagic,htotal,rfl,rfl⟩ := nextFrame_eq_some h
  rw [serveLoop,if_neg (by omega)]
  rw [if_neg (by simpa using hmagic),if_neg (by omega)]

lemma serveLoop_of_none {fuel : ℕ} (h : nextFrame c.readBuf = none) :
    serveLoop handler (fuel+1) c = if badMagic c.readBuf then ({ c with close := true },false) else (c,true) := by
  exact ite_of_nextFrame_none h _ _ _

lemma tryDispatch_of_some (hopen : c.close = false) (hidle : c.inFlight = false)
    (h : nextFrame c.readBuf = some (rawData,rest)) :
    c.tryDispatch =
      { c with readBuf := rest, inFlight := true, tasks := c.tasks ++ [.submitted rawData] } := by
  obtain ⟨hlen,hmagic,htotal,rfl,rfl⟩ := nextFrame_eq_some h
  rw [tryDispatch,if_neg (by simp [hopen,hidle]),if_neg (by omega)]
  rw [if_neg (by simpa using hmagic),if_neg (by omega)]

lemma tryDispatch_of_none (hopen : c.close = false) (hidle : c.inFlight = false) (h : nextFrame c.readBuf = none) :
    c.tryDispatch = if badMagic c.readBuf then { c with close := true } else c := by
  rw [tryDispatch,if_neg (by simp [hopen,hidle])]
  exact ite_of_nextFrame_none h _ _ _

lemma tryDispatch_of_busy (h : c.close = true ∨ c.inFlight = true) : c.tryDispatch = c := by
  rw [tryDispatch,if_pos h]

lemma exists_onWritable (accept : Bytes → ℤ) (c : Connection σ) : ∃ n, c.onWritable accept =
    { c with writeBuf := c.writeBuf.drop n, sent := c.sent ++ c.writeBuf.take n } := by
  have hloop : ∀ fuel (c : Connection σ), ∃ n, writeLoop accept fuel c =
      { c with writeBuf := c.writeBuf.drop n, sent := c.sent ++ c.writeBuf.take n } := by
    intro fuel
    induction fuel with
    | zero => exact fun c => ⟨0,by simp [writeLoop]⟩
    | succ fuel ih =>
      intro c
      rw [writeLoop]
      split
      · exact ⟨0,by simp⟩
      · dsimp only
        split
        · obtain ⟨n,hn⟩ := ih { c with
            writeBuf := c.writeBuf.drop (accept c.writeBuf).toNat
            sent := c.sent ++ c.writeBuf.take (accept c.writeBuf).toNat }
          refine ⟨(accept c.writeBuf).toNat+n,?_⟩
          rw [hn]
          simp only [drop_drop,append_assoc,take_add]
        · exact ⟨0,by simp⟩
  exact hloop _ c

def acceptAll (buf : Bytes) : ℤ := buf.length

lemma onWritable_acceptAll (c : Connection σ) :
    c.onWritable acceptAll = { c with writeBuf := [], sent := c.sent ++ c.writeBuf } := by
  rw [onWritable]
  cases hbuf : c.writeBuf with
  | nil =>
    rw [length_nil,writeLoop,append_nil,← hbuf]
  | cons b bs =>
    have hpos : 0 < acceptAll c.writeBuf := by
      rw [hbuf,acceptAll,length_cons]
      omega
    have htoNat : (acceptAll c.writeBuf).toNat = c.writeBuf.length := rfl
    rw [length_cons,writeLoop,if_neg (by simp [hbuf])]
    rw [if_pos hpos,htoNat,drop_length,take_length,hbuf]
    cases bs.length with
    | zero => rfl
    | succ n => rw [writeLoop,if_pos rfl]

end Connection
end TitanKV.Minikv
