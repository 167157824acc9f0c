import TitanKV.Minikv.Connection

/-! The Go client of the data service: one connection that is kept between calls and dropped at the first error. -/
namespace TitanKV.Services
open LittleEndian Minikv Parsing List UInt8 Cmd Prod

def mkMagic : ℕ := 0x4D4B

/-- A TCP connection as the client sees it: what it has sent, and how many bytes of the answers it has read. -/
structure Conn where
  id : ℕ
  sent : Bytes
  consumed : ℕ
  deriving DecidableEq, Repr

/-- `dials` numbers the connections. -/
structure MiniKVClient where
  conn : Option Conn
  dials : ℕ
  deriving DecidableEq, Repr

inductive ClientError
  | dial
  | write
  | read
  | badMagic (magic : ℕ)
  deriving DecidableEq, Repr

/-- What goes wrong in one attempt. A read fails when the connection breaks or the deadline passes. -/
structure Faults where
  dial : Bool
  write : Bool
  header : Bool
  payload : Bool
  deriving DecidableEq, Repr

def noFaults : Faults := ⟨false,false,false,false⟩

namespace MiniKVClient

def fresh : MiniKVClient := ⟨none,0⟩

def dial (fails : Bool) (c : MiniKVClient) : Option (Conn × MiniKVClient) :=
  match c.conn with
  | some conn => some (conn,c)
  | none =>
    if fails then none
    else some (⟨c.dials,[],0⟩,⟨some ⟨c.dials,[],0⟩,c.dials+1⟩)

def reset (c : MiniKVClient) : MiniKVClient := { c with conn := none }

end MiniKVClient

/-- `io.ReadFull`: the bytes are there in time, or the read fails. -/
def readFull (fails : Bool) (r : Bytes) (n : ℕ) : Option (Bytes × Bytes) :=
  if fails ∨ r.length<n then none else some (r.take n,r.drop n)

/-- The status and the payload of a response, and what is left of the stream. -/
def readResponse (faults : Faults) (r : Bytes) : Except ClientError (UInt8 × Bytes × Bytes) :=
  match readFull faults.header r 7 with
  | none => .error .read
  | some (hdr,r) =>
    let magic := value (hdr.take 2)
    if magic ≠ mkMagic then .error (.badMagic magic)
    else
      let status := (hdr.drop 2).headD 0
      let valLen := decodeFixed32 (hdr.drop 3)
      if valLen = 0 then .ok (status,[],r)
      else
        match readFull faults.payload r valLen with
        | none => .error .read
        | some (payload,r) => .ok (status,payload,r)

/-- What the server sends back on a connection: one answer to each complete frame, in their order. -/
def answers (answer : ℕ → Response) (sent : Bytes) : Bytes :=
  (range (framesOf sent).length).flatMap fun i => encodeResponse (answer i)

/-- A call of `roundTrip` with what happens to its two attempts. -/
structure Call where
  cmd : UInt8
  key : Bytes
  value : Bytes
  first : Faults
  second : Faults
  deriving DecidableEq, Repr

def Call.request (call : Call) : Bytes := encodeRequest call.cmd call.key call.value

/-- The loop of `roundTrip`. `answer id i` is the server's answer to the frame with index `i` of connection `id`. -/
def attempts (answer : ℕ → ℕ → Response) (req : Bytes) :
    List Faults → Option ClientError → MiniKVClient → Except (Option ClientError) (UInt8 × Bytes) × MiniKVClient
  | [],lastErr,c => (.error lastErr,c)
  | faults::rest,_,c =>
    match c.dial faults.dial with
    | none => (.error (some .dial),c)
    | some (conn,c) =>
      -- a `Write` that fails may have delivered a part of the request; the connection is given up
      if faults.write then attempts answer req rest (some .write) c.reset
      else
        let sent := conn.sent++req
        let stream := (answers (answer conn.id) sent).drop conn.consumed
        match readResponse faults stream with
        | .error err => attempts answer req rest (some err) c.reset
        | .ok (st,payload,left) =>
          (.ok (st,payload),{ c with conn := some ⟨conn.id,sent,conn.consumed+(stream.length-left.length)⟩ })

def roundTrip (answer : ℕ → ℕ → Response) (call : Call) (c : MiniKVClient) :
    Except (Option ClientError) (UInt8 × Bytes) × MiniKVClient :=
  attempts answer call.request [call.first,call.second] none c

def run (answer : ℕ → ℕ → Response) (calls : List Call) (c : MiniKVClient) : MiniKVClient :=
  calls.foldl (fun c call => (roundTrip answer call c).2) c

/-- The response that a call returns is the server's answer to the frame that this call put on the connection. -/
def Matched (answer : ℕ → ℕ → Response) (call : Call) (c : MiniKVClient) : Prop :=
  ∀ st payload, (roundTrip answer call c).1 = .ok (st,payload) →
    ∃ conn before, (roundTrip answer call c).2.conn = some conn ∧ conn.sent = before++call.request ∧
      framesOf conn.sent = framesOf before ++ [call.request] ∧
      st = (answer conn.id (framesOf before).length).status.code ∧
      payload = (answer conn.id (framesOf before).length).value

lemma readFull_append {fails : Bool} {a b : Bytes} {n : ℕ} (hn : a.length = n) :
    readFull fails (a++b) n = if fails then none else some (a,b) := by
  have hlen : ¬(a++b).length<n := by rw [length_append]; omega
  rw [readFull,take_left' hn,drop_left' hn]
  simp only [hlen,or_false]

lemma readResponse_encodeResponse {r : Response} (hfits : r.value.length<2^32) (rest : Bytes) {faults : Faults}
    {st : UInt8} {payload left : Bytes}
    (h : readResponse faults (encodeResponse r ++ rest) = .ok (st,payload,left)) :
    st = r.status.code ∧ payload = r.value ∧ left = rest := by
  have hcut : encodeResponse r ++ rest =
      (bytes 2 kProtocolMagic ++ r.status.code::encodeFixed32 r.value.length)++(r.value++rest) := by
    simp [encodeResponse]
  have hlen : (bytes 2 kProtocolMagic ++ r.status.code::encodeFixed32 r.value.length).length = 7 := by simp
  have hvalLen : decodeFixed32 (encodeFixed32 r.value.length) = r.value.length := by
    have hdecode := decodeFixed32_encode r.value.length []
    rwa [append_nil,Nat.mod_eq_of_lt hfits] at hdecode
  rw [readResponse,hcut,readFull_append hlen] at h
  cases hheader : faults.header with
  | true =>
    rw [hheader] at h
    cases h
  | false =>
    rw [hheader] at h
    have hmagic : value ((bytes 2 kProtocolMagic ++ r.status.code::encodeFixed32 r.value.length).take 2) =
        mkMagic := by
      rw [take_left' (length_bytes 2 _)]
      rfl
    have hstatus : (bytes 2 kProtocolMagic ++ r.status.code::encodeFixed32 r.value.length).drop 2 =
        r.status.code::encodeFixed32 r.value.length := drop_left' (length_bytes 2 _)
    have hlength : (bytes 2 kProtocolMagic ++ r.status.code::encodeFixed32 r.value.length).drop 3 =
        encodeFixed32 r.value.length := by
      rfl
    simp only [Bool.false_eq_true,if_false,hmagic,hstatus,hlength,hvalLen,ne_eq,not_true_eq_false] at h
    by_cases hempty : r.value.length = 0
    · rw [if_pos hempty] at h
      obtain ⟨rfl,hpair⟩ := mk.inj (Except.ok.inj h)
      obtain ⟨rfl,rfl⟩ := mk.inj hpair
      have hnil := length_eq_zero_iff.mp hempty
      exact ⟨rfl,hnil.symm,by rw [hnil,nil_append]⟩
    · rw [if_neg hempty,readFull_append rfl] at h
      cases hpayload : faults.payload with
      | true =>
        rw [hpayload] at h
        cases h
      | false =>
        rw [hpayload] at h
        obtain ⟨rfl,hpair⟩ := mk.inj (Except.ok.inj h)
        obtain ⟨rfl,rfl⟩ := mk.inj hpair
        exact ⟨rfl,rfl,rfl⟩

lemma answers_append (answer : ℕ → Response) {sent : Bytes} (hsent : restOf sent = []) {call : Call}
    (hkey : call.key.length<2^32) (hvalue : call.value.length<2^32) :
    framesOf (sent++call.request) = framesOf sent ++ [call.request] ∧ restOf (sent++call.request) = [] ∧
      answers answer (sent++call.request) = answers answer sent ++
        encodeResponse (answer (framesOf sent).length) := by
  have hnext : nextFrame call.request = some (call.request,[]) := by
    have hframe := nextFrame_encodeRequest call.cmd hkey hvalue []
    rwa [append_nil] at hframe
  have hnil : nextFrame [] = none := rfl
  have hframes : framesOf (sent++call.request) = framesOf sent ++ [call.request] := by
    rw [framesOf_append,hsent,nil_append]
    congr 1
    exact (many_of_some nextFrame_consumes hnext).trans (by rw [many_of_none hnil])
  refine ⟨hframes,?_,?_⟩
  · rw [restOf_append,hsent,nil_append]
    exact (remainder_of_some nextFrame_consumes hnext).trans (remainder_of_none hnil)
  · rw [answers,hframes,length_append,length_singleton,range_succ,flatMap_append]
    simp [answers]

/-- Between two calls, everything that was asked on the connection is answered and read. -/
def Settled (answer : ℕ → ℕ → Response) (c : MiniKVClient) : Prop :=
  ∀ conn, c.conn = some conn → restOf conn.sent = [] ∧ conn.consumed = (answers (answer conn.id) conn.sent).length

lemma settled_fresh (answer : ℕ → ℕ → Response) : Settled answer MiniKVClient.fresh := nofun

lemma settled_reset (answer : ℕ → ℕ → Response) (c : MiniKVClient) : Settled answer c.reset := nofun

section Calls
variable {answer : ℕ → ℕ → Response}

lemma Settled.dial {c c' : MiniKVClient} {fails : Bool} {conn : Conn} (h : Settled answer c)
    (hdial : c.dial fails = some (conn,c')) :
    restOf conn.sent = [] ∧ conn.consumed = (answers (answer conn.id) conn.sent).length := by
  rw [MiniKVClient.dial] at hdial
  split at hdial
  · rename_i conn' hconn
    obtain ⟨rfl,rfl⟩ := mk.inj (Option.some.inj hdial)
    exact h conn' hconn
  · split at hdial
    · cases hdial
    · obtain ⟨rfl,rfl⟩ := mk.inj (Option.some.inj hdial)
      exact ⟨rfl,rfl⟩

variable (hfits : ∀ id i, (answer id i).value.length<2^32) {call : Call} (hkey : call.key.length<2^32)
  (hvalue : call.value.length<2^32)
include hfits hkey hvalue

/-- The loop leaves a settled connection or none, and what it returns answers the request. -/
lemma Settled.attempts (faults : List Faults) {lastErr : Option ClientError} {c : MiniKVClient}
    (h : Settled answer c) :
    Settled answer (attempts answer call.request faults lastErr c).2 ∧
    ∀ st payload, (Services.attempts answer call.request faults lastErr c).1 = .ok (st,payload) →
      ∃ conn before, (Services.attempts answer call.request faults lastErr c).2.conn = some conn ∧
        conn.sent = before++call.request ∧ framesOf conn.sent = framesOf before ++ [call.request] ∧
        st = (answer conn.id (framesOf before).length).status.code ∧
        payload = (answer conn.id (framesOf before).length).value := by
  induction faults generalizing lastErr c with
  | nil => exact ⟨h,nofun⟩
  | cons f faults ih =>
    rw [Services.attempts]
    split
    · exact ⟨h,nofun⟩
    · rename_i conn c' hdial
      obtain ⟨hrest,hconsumed⟩ := h.dial hdial
      split
      · exact ih (settled_reset answer c')
      · obtain ⟨hframes,hrest',hanswers⟩ := answers_append (answer conn.id) hrest hkey hvalue
        dsimp only
        rw [hanswers,hconsumed,drop_left]
        split
        · exact ih (settled_reset answer c')
        · rename_i st payload left hread
          have hread' : readResponse f (encodeResponse (answer conn.id (framesOf conn.sent).length) ++ []) =
              .ok (st,payload,left) := by rwa [append_nil]
          obtain ⟨rfl,rfl,rfl⟩ := readResponse_encodeResponse (hfits _ _) [] hread'
          refine ⟨?_,?_⟩
          · intro conn' hconn'
            obtain rfl := Option.some.inj hconn'
            refine ⟨hrest',?_⟩
            rw [hanswers,length_append,length_nil,Nat.sub_zero]
          · intro st payload hok
            obtain ⟨rfl,rfl⟩ := mk.inj (Except.ok.inj hok)
            exact ⟨_,conn.sent,rfl,rfl,hframes,rfl,rfl⟩

end Calls

/-- A call whose key and value have lengths that fit the header. -/
def Call.Fits (call : Call) : Prop := call.key.length<2^32 ∧ call.value.length<2^32

/-- In a sequence of calls whose requests and answers fit their headers, no call returns the answer to another. -/
theorem matched_of_fits (answer : ℕ → ℕ → Response) (hfits : ∀ id i, (answer id i).value.length<2^32)
    (calls : List Call) (hcalls : ∀ call ∈ calls, call.Fits) (call : Call) (hcall : call.Fits) :
    Matched answer call (run answer calls MiniKVClient.fresh) := by
  have hrun : ∀ c, Settled answer c → Settled answer (run answer calls c) := by
    induction calls with
    | nil => exact fun c h => h
    | cons call' calls ih =>
      intro c h
      obtain ⟨hfirst,hrest⟩ := forall_mem_cons.mp hcalls
      exact ih hrest _ (h.attempts hfits hfirst.1 hfirst.2 _).1
  exact ((hrun _ (settled_fresh answer)).attempts hfits hcall.1 hcall.2 _).2

/-- Two calls on one connection, with a timeout in between. -/
theorem matched_after_timeout :
    Matched (fun id i => ⟨.ok,[ofNat id,ofNat i]⟩) ⟨get.code,[2],[],noFaults,noFaults⟩
      (run (fun id i => ⟨.ok,[ofNat id,ofNat i]⟩)
        [⟨put.code,[1],[7],{ noFaults with header := true },noFaults⟩] MiniKVClient.fresh) ∧
    (roundTrip (fun id i => ⟨.ok,[ofNat id,ofNat i]⟩) ⟨get.code,[2],[],noFaults,noFaults⟩
      (run (fun id i => ⟨.ok,[ofNat id,ofNat i]⟩)
        [⟨put.code,[1],[7],{ noFaults with header := true },noFaults⟩] MiniKVClient.fresh)).1 = .ok (0,[1,1]) :=
  ⟨matched_of_fits _ (by simp) _ (by simp [Call.Fits]) _ (by simp [Call.Fits]),by decide +kernel⟩

section Oversize

/-- A key of 2³² bytes that is itself a request frame. -/
def smuggled : Bytes := encodeRequest get.code (replicate (2^32-11) 0) []

def numbered (_ i : ℕ) : Response := ⟨.ok,[ofNat i]⟩

def oversize : Call := ⟨get.code,smuggled,[],noFaults,noFaults⟩

lemma length_smuggled : smuggled.length = 2^32 := by
  rw [smuggled,length_encodeRequest,length_replicate]
  rfl

/-- The header announces an empty key: the server reads two frames. -/
lemma framesOf_oversize (rest : Bytes) : framesOf (oversize.request++rest) =
    encodeRequest get.code [] []::smuggled::framesOf rest := by
  have hwrap : oversize.request = encodeRequest get.code [] [] ++ smuggled := by
    have hzero : encodeFixed32 (2^32) = encodeFixed32 0 := by decide
    rw [Call.request,oversize,encodeRequest,encodeRequest,RequestHeader.encode,RequestHeader.encode,length_smuggled,
      hzero]
    simp
  have hsecond : nextFrame (smuggled++rest) = some (smuggled,rest) :=
    nextFrame_encodeRequest _ (by rw [length_replicate]; norm_num) (by norm_num) rest
  have hfirst := @nextFrame_encodeRequest get.code [] [] (by norm_num) (by norm_num) (smuggled++rest)
  rw [hwrap,append_assoc,framesOf,many_of_some nextFrame_consumes hfirst,many_of_some nextFrame_consumes hsecond]
  rfl

lemma attempts_of_read {answer : ℕ → ℕ → Response} {req : Bytes} {f : Faults} {rest : List Faults}
    {lastErr : Option ClientError} {c c' : MiniKVClient} {conn : Conn} (hdial : c.dial f.dial = some (conn,c'))
    (hwrite : f.write = false) {stream : Bytes} (hstream : answers (answer conn.id) (conn.sent++req) = stream)
    {st : UInt8} {payload left : Bytes}
    (hread : readResponse f (stream.drop conn.consumed) = .ok (st,payload,left)) :
    attempts answer req (f::rest) lastErr c = (.ok (st,payload),{ c' with
      conn := some ⟨conn.id,conn.sent++req,conn.consumed+((stream.drop conn.consumed).length-left.length)⟩ }) := by
  rw [attempts,hdial]
  dsimp only
  rw [if_neg (by simp [hwrite]),hstream,hread]

/-- The call returns after the first of the two answers. -/
lemma roundTrip_oversize : roundTrip numbered oversize MiniKVClient.fresh =
    (.ok (0,[0]),⟨some ⟨0,oversize.request,8⟩,1⟩) := by
  have hstream : answers (numbered 0) ([]++oversize.request) =
      encodeResponse ⟨.ok,[0]⟩ ++ encodeResponse ⟨.ok,[1]⟩ := by
    have hframes := framesOf_oversize []
    rw [append_nil] at hframes
    rw [nil_append,answers,hframes]
    rfl
  have hread : readResponse noFaults ((encodeResponse ⟨.ok,[0]⟩ ++ encodeResponse ⟨.ok,[1]⟩).drop 0) =
      .ok (0,[0],encodeResponse ⟨.ok,[1]⟩) := by decide
  have hdial : MiniKVClient.fresh.dial noFaults.dial = some (⟨0,[],0⟩,⟨some ⟨0,[],0⟩,1⟩) := rfl
  rw [roundTrip,show oversize.first = noFaults by rfl]
  generalize oversize.request = req at hstream ⊢
  exact attempts_of_read hdial rfl hstream hread

/-- The next call reads the answer to the second frame. -/
lemma roundTrip_after_oversize : roundTrip numbered ⟨get.code,[2],[],noFaults,noFaults⟩
    ⟨some ⟨0,oversize.request,8⟩,1⟩ =
      (.ok (0,[1]),⟨some ⟨0,oversize.request ++ encodeRequest get.code [2] [],16⟩,1⟩) := by
  have hstream : answers (numbered 0) (oversize.request ++ encodeRequest get.code [2] []) =
      encodeResponse ⟨.ok,[0]⟩ ++ (encodeResponse ⟨.ok,[1]⟩ ++ encodeResponse ⟨.ok,[2]⟩) := by
    rw [answers,framesOf_oversize]
    rfl
  have hread : readResponse noFaults ((encodeResponse ⟨.ok,[0]⟩ ++ (encodeResponse ⟨.ok,[1]⟩ ++
      encodeResponse ⟨.ok,[2]⟩)).drop 8) = .ok (0,[1],encodeResponse ⟨.ok,[2]⟩) := by decide
  generalize oversize.request = req at hstream ⊢
  have hdial : MiniKVClient.dial noFaults.dial ⟨some ⟨0,req,8⟩,1⟩ = some (⟨0,req,8⟩,⟨some ⟨0,req,8⟩,1⟩) := rfl
  exact attempts_of_read hdial rfl hstream hread

/-- After a call with a key of 2³² bytes, the next one returns a response that is not the answer to its request. -/
theorem not_matched_after_oversize :
    ¬Matched numbered ⟨get.code,[2],[],noFaults,noFaults⟩ (run numbered [oversize] MiniKVClient.fresh) := by
  have hrun : run numbered [oversize] MiniKVClient.fresh = ⟨some ⟨0,oversize.request,8⟩,1⟩ := by
    rw [run,foldl_cons,roundTrip_oversize]
    rfl
  rw [hrun]
  intro hmatched
  obtain ⟨conn,before,hconn,hsent,-,-,hpayload⟩ := hmatched 0 [1] (by rw [roundTrip_after_oversize])
  rw [roundTrip_after_oversize] at hconn
  obtain rfl := Option.some.inj hconn
  have hbefore : before = oversize.request := (append_cancel_right hsent).symm
  have hframes := framesOf_oversize []
  rw [append_nil] at hframes
  rw [hbefore,hframes] at hpayload
  revert hpayload
  decide

end Oversize
end TitanKV.Services
