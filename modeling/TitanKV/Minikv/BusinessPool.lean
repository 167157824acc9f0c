import TitanKV.Minikv.SynchronousMode

/-! A connection with a business pool: the loop thread reads and runs queued functors, the workers of the pool run
the tasks that `tryDispatch` submits. -/
namespace TitanKV.Minikv
open Parsing List Prod

/-- What the threads do. A task reads `close_`, and later calls the handler and queues a functor with the response;
    the loop runs the functors in the order in which they were queued. -/
inductive PoolEvent
  | readable (r : ReadResult)
  | markClosed
  | check (i : ℕ)
  | handle (i : ℕ)
  | functor (accept : Bytes → ℤ)

namespace Connection
variable {σ : Type*}

def runFunctor (accept : Bytes → ℤ) (response : Bytes) (c : Connection σ) : Connection σ :=
  let c := if c.close then c else (c.append response).onWritable accept
  let c := { c with inFlight := false }
  if c.close then c else c.tryDispatch

def step (handler : Bytes → σ → Bytes × σ) (e : PoolEvent) (c : Connection σ) : Connection σ :=
  match e with
  | .readable r => c.onReadablePool r
  | .markClosed => { c with close := true }
  | .check i =>
    match c.tasks[i]? with
    | some (.submitted rawData) =>
      -- the response of a task that finds the connection closed is empty
      if c.close then { c with tasks := c.tasks.eraseIdx i, pending := c.pending ++ [[]] }
      else { c with tasks := c.tasks.set i (.checked rawData) }
    | _ => c
  | .handle i =>
    match c.tasks[i]? with
    | some (.checked rawData) =>
      { c.call handler rawData with
        tasks := c.tasks.eraseIdx i
        pending := c.pending ++ [(handler rawData c.state).1] }
    | _ => c
  | .functor accept =>
    match c.pending with
    | [] => c
    | response::rest => { c with pending := rest }.runFunctor accept response

/-- Any interleaving; an event that cannot happen changes nothing. -/
def run (handler : Bytes → σ → Bytes × σ) (events : List PoolEvent) (c : Connection σ) : Connection σ :=
  events.foldl (fun c e => c.step handler e) c

end Connection

def PoolEvent.bytes : PoolEvent → Bytes
  | readable (.data chunk) => chunk
  | _ => []

def received (events : List PoolEvent) : Bytes := events.flatMap PoolEvent.bytes

namespace Connection
variable {σ : Type*}

/-- What holds while the connection is open: every complete frame was handled, is in the pool or waits in the buffer,
    and every response was appended or waits in the loop. -/
structure Current (received : Bytes) (c : Connection σ) : Prop where
  frames : framesOf received = c.handled.map fst ++ c.tasks.map Task.rawData ++ framesOf c.readBuf
  rest : restOf received = restOf c.readBuf
  answers : c.handled.map snd = c.appended++c.pending

/-- The requests of a connection are worked on one at a time and in order, and so are their responses. -/
structure InOrder (handler : Bytes → σ → Bytes × σ) (s : σ) (received : Bytes) (c : Connection σ) : Prop where
  busy : c.tasks.length+c.pending.length = if c.inFlight then 1 else 0
  calls : serve handler (c.handled.map fst) s = (c.handled,c.state)
  taken : c.handled.map fst ++ c.tasks.map Task.rawData <+: framesOf received
  answered : c.appended <+: c.handled.map snd
  written : c.sent++c.writeBuf = c.appended.flatten
  current : c.close = false → Current received c

/-- Besides, no complete frame waits unless a request is in flight. -/
structure Ordered (handler : Bytes → σ → Bytes × σ) (s : σ) (received : Bytes) (c : Connection σ) : Prop extends
    InOrder handler s received c where
  idle : c.close = false → c.inFlight = false → nextFrame c.readBuf = none ∧ badMagic c.readBuf = false

lemma ordered_fresh {handler : Bytes → σ → Bytes × σ} (s : σ) : Ordered handler s [] (fresh s) := by
  have hframes : framesOf [] = [] := many_of_none rfl
  refine ⟨⟨rfl,rfl,?_, nil_prefix,rfl,fun _ => ⟨?_,rfl,rfl⟩⟩,fun _ _ => ⟨rfl,rfl⟩⟩
  · rw [hframes]; exact nil_prefix
  · exact hframes.symm

section Step
variable {handler : Bytes → σ → Bytes × σ} {s : σ} {received : Bytes} {c : Connection σ}

section
variable (h : InOrder handler s received c)
include h

lemma Ordered.of_closed (hclose : c.close = true) : Ordered handler s received c := by
  refine ⟨h,?_⟩
  rw [hclose]
  exact nofun

lemma InOrder.closed : Ordered handler s received { c with close := true } :=
  .of_closed { h with current := nofun } rfl

lemma InOrder.nothing_underway (hidle : c.inFlight = false) :
    c.tasks = [] ∧ c.pending = [] := by
  have hbusy := h.busy
  rw [hidle,if_neg nofun,Nat.add_eq_zero_iff] at hbusy
  exact ⟨length_eq_zero_iff.mp hbusy.1,length_eq_zero_iff.mp hbusy.2⟩

lemma InOrder.le_one : c.tasks.length+c.pending.length≤1 := by
  rw [h.busy]
  split <;> omega

lemma InOrder.only_task {i : ℕ} {t : Task} (ht : c.tasks[i]? = some t) :
    i = 0 ∧ c.tasks = [t] ∧ c.pending = [] ∧ c.inFlight = true := by
  have hle := h.le_one
  obtain ⟨hi,hget⟩ := List.getElem?_eq_some_iff.mp ht
  have hone : c.tasks.length = 1 := by omega
  obtain ⟨t',htasks⟩ := length_eq_one_iff.mp hone
  have hzero : i = 0 := by omega
  subst hzero
  refine ⟨rfl,?_,length_eq_zero_iff.mp (by omega),?_⟩
  · rw [htasks] at ht ⊢
    rw [Option.some.inj ht]
  · by_contra hnot
    have hbusy := h.busy
    rw [if_neg hnot] at hbusy
    omega

lemma InOrder.only_response {response : Bytes} {rest : List Bytes}
    (hpending : c.pending = response::rest) : rest = [] ∧ c.tasks = [] := by
  have hle := h.le_one
  rw [hpending,length_cons] at hle
  exact ⟨length_eq_zero_iff.mp (by omega),length_eq_zero_iff.mp (by omega)⟩

lemma InOrder.read (chunk : Bytes) :
    InOrder handler s (received++chunk) { c with readBuf := c.readBuf ++ chunk } := by
  refine { h with taken := ?_, current := ?_ }
  · rw [framesOf_append]
    exact h.taken.trans (prefix_append _ _)
  · intro hopen
    have hcur := h.current hopen
    refine ⟨?_,?_,hcur.answers⟩
    · rw [framesOf_append,hcur.frames,hcur.rest,append_assoc,← framesOf_append]
    · rw [restOf_append,hcur.rest,← restOf_append]

lemma InOrder.tryDispatch : Ordered handler s received c.tryDispatch := by
  by_cases hbusy : c.close = true ∨ c.inFlight = true
  · rw [tryDispatch_of_busy hbusy]
    refine ⟨h,?_⟩
    intro hopen hidle
    rw [hopen,hidle] at hbusy
    simp at hbusy
  · rw [not_or,Bool.not_eq_true,Bool.not_eq_true] at hbusy
    obtain ⟨hopen,hidle⟩ := hbusy
    obtain ⟨htasks,hpending⟩ := h.nothing_underway hidle
    have hcur := h.current hopen
    cases hnext : nextFrame c.readBuf with
    | none =>
      rw [tryDispatch_of_none hopen hidle hnext]
      split
      · exact h.closed
      · rename_i hbad
        exact ⟨h,fun _ _ => ⟨hnext,by simpa using hbad⟩⟩
    | some r =>
      obtain ⟨raw,rest⟩ := r
      have hframes : framesOf c.readBuf = raw::framesOf rest := many_of_some nextFrame_consumes hnext
      have hrest : restOf c.readBuf = restOf rest := remainder_of_some nextFrame_consumes hnext
      have hall : framesOf received = c.handled.map fst ++ [raw] ++ framesOf rest := by
        rw [hcur.frames,htasks,hframes]
        simp
      rw [tryDispatch_of_some hopen hidle hnext]
      refine ⟨⟨?_,h.calls,?_,h.answered,h.written,fun _ => ⟨?_,?_,hcur.answers⟩⟩,fun _ => nofun⟩
      · rw [htasks,hpending]; rfl
      · rw [htasks,hall]
        exact prefix_append _ _
      · rw [htasks,hall]; rfl
      · rw [hcur.rest,hrest]

end

lemma Ordered.check (h : Ordered handler s received c) (i : ℕ) :
    Ordered handler s received (c.step handler (.check i)) := by
  rw [step]
  split
  · rename_i raw ht
    obtain ⟨rfl,htasks,hpending,hbusy⟩ := h.only_task ht
    split
    · rename_i hclose
      refine .of_closed { h with busy := ?_, taken := ?_, current := ?_ } hclose
      · rw [htasks,hpending,hbusy]; rfl
      · rw [htasks]
        have htaken := h.taken
        rw [eraseIdx_zero,tail_cons,map_nil,append_nil]
        exact (prefix_append _ _).trans htaken
      · rw [hclose]
        exact nofun
    · rename_i hopen
      have hcur := h.current (by simpa using hopen)
      have hraw : (c.tasks.set 0 (.checked raw)).map Task.rawData = c.tasks.map Task.rawData := by rw [htasks]; rfl
      refine ⟨⟨?_,h.calls,?_,h.answered,h.written,fun _ => ⟨?_,hcur.rest,hcur.answers⟩⟩,h.idle⟩
      · rw [length_set]
        exact h.busy
      · rw [hraw]
        exact h.taken
      · rw [hraw]
        exact hcur.frames
  · exact h

lemma Ordered.handle (h : Ordered handler s received c) (i : ℕ) :
    Ordered handler s received (c.step handler (.handle i)) := by
  rw [step]
  split
  · rename_i raw ht
    obtain ⟨rfl,htasks,hpending,hbusy⟩ := h.only_task ht
    rw [call,htasks,hpending]
    refine ⟨⟨?_,?_,?_,?_,h.written,fun hopen => ⟨?_,(h.current hopen).rest,?_⟩⟩,?_⟩
    · rw [hbusy]
      rfl
    · rw [map_append,serve_append,h.calls]
      rfl
    · have htaken := h.taken
      rw [htasks] at htaken
      simpa [Task.rawData] using htaken
    · rw [map_append]
      exact h.answered.trans (prefix_append _ _)
    · have hframes := (h.current hopen).frames
      rw [htasks] at hframes
      rw [hframes]
      simp [Task.rawData]
    · have hanswers := (h.current hopen).answers
      rw [hpending,append_nil] at hanswers
      rw [map_append,hanswers]
      rfl
    · intro _ hidle
      rw [hbusy] at hidle
      cases hidle
  · exact h

lemma runFunctor_of_closed (hclose : c.close = true) (accept : Bytes → ℤ) (response : Bytes) :
    c.runFunctor accept response = { c with inFlight := false } := by
  have hstay : (if c.close then c else (c.append response).onWritable accept) = c := if_pos hclose
  rw [runFunctor,hstay]
  rw [if_pos hclose]

lemma runFunctor_of_open (hopen : c.close = false) (accept : Bytes → ℤ) (response : Bytes) :
    c.runFunctor accept response = { (c.append response).onWritable accept with inFlight := false }.tryDispatch := by
  have hgo : (if c.close then c else (c.append response).onWritable accept) =
    (c.append response).onWritable accept :=
    if_neg (by simp [hopen])
  have hclose : ((c.append response).onWritable accept).close = false := by
    obtain ⟨n,hn⟩ := exists_onWritable accept (c.append response)
    rw [hn]
    exact hopen
  rw [runFunctor,hgo]
  rw [if_neg (by simp [hclose])]

lemma InOrder.answer (h : InOrder handler s received c) (hopen : c.close = false) {response : Bytes}
    (hpending : c.pending = [response]) (accept : Bytes → ℤ) : InOrder handler s received
      { ({ c with pending := [] }.append response).onWritable accept with inFlight := false } := by
  obtain ⟨-,htasks⟩ := h.only_response hpending
  have hcur := h.current hopen
  have hanswers := hcur.answers
  rw [hpending] at hanswers
  obtain ⟨n,hn⟩ := exists_onWritable accept ({ c with pending := [] }.append response)
  rw [hn]
  dsimp only [append]
  refine ⟨?_,h.calls,h.taken,?_,?_,fun _ => ⟨hcur.frames,hcur.rest,?_⟩⟩
  · rw [htasks]; rfl
  · rw [hanswers]
  · rw [append_assoc,take_append_drop,← append_assoc,h.written,flatten_append,
      flatten_singleton]
  · rw [hanswers,append_nil]

section
variable (h : Ordered handler s received c)
include h

lemma Ordered.functor (accept : Bytes → ℤ) :
    Ordered handler s received (c.step handler (.functor accept)) := by
  rw [step]
  split
  · exact h
  · rename_i response rest hpending
    obtain ⟨rfl,htasks⟩ := h.only_response hpending
    by_cases hclose : c.close = true
    · rw [runFunctor_of_closed (c := { c with pending := [] }) hclose]
      refine .of_closed { h with busy := ?_, current := ?_ } hclose
      · rw [htasks]; rfl
      · rw [hclose]
        exact nofun
    · rw [Bool.not_eq_true] at hclose
      rw [runFunctor_of_open (c := { c with pending := [] }) hclose]
      exact (h.answer hclose hpending accept).tryDispatch

lemma Ordered.readable (r : ReadResult) :
    Ordered handler s (received ++ PoolEvent.bytes (.readable r)) (c.step handler (.readable r)) := by
  cases r with
  | data chunk => exact (h.read chunk).tryDispatch
  | eof | failed => exact (append_nil received).symm ▸ h.closed
  | again => exact (append_nil received).symm ▸ h

theorem Ordered.step (e : PoolEvent) :
    Ordered handler s (received++e.bytes) (c.step handler e) := by
  cases e with
  | readable r => exact h.readable r
  | markClosed => exact (append_nil received).symm ▸ h.closed
  | check i => exact (append_nil received).symm ▸ h.check i
  | handle i => exact (append_nil received).symm ▸ h.handle i
  | functor accept => exact (append_nil received).symm ▸ h.functor accept

lemma Ordered.run (events : List PoolEvent) :
    Ordered handler s (received ++ Minikv.received events) (c.run handler events) := by
  induction events generalizing received c with
  | nil => exact (append_nil received).symm ▸ h
  | cons e events ih =>
    have hnext := ih (h.step e)
    rwa [append_assoc] at hnext

end

end Step

/-- Whatever the threads do, the requests of the connection are worked on in order. -/
theorem ordered_of_run (handler : Bytes → σ → Bytes × σ) (s : σ) (events : List PoolEvent) :
    Ordered handler s (received events) ((fresh s).run handler events) :=
  (ordered_fresh s).run events

/-- An event of a client that has not closed its side yet, on a socket that takes everything. -/
def Undisturbed : PoolEvent → Prop
  | .readable (.data _) | .readable .again | .check _ | .handle _ => True
  | .readable .eof | .readable .failed | .markClosed => False
  | .functor accept => accept = acceptAll

section Modes
variable {handler : Bytes → σ → Bytes × σ} {s : σ} {stream : Bytes}

variable {c : Connection σ}

lemma InOrder.open_tryDispatch {received : Bytes} (h : InOrder handler s received c)
    (hopen : c.close = false) (hgood : badMagic (restOf received) = false) :
    c.tryDispatch.close = false ∧ c.tryDispatch.writeBuf = c.writeBuf := by
  cases hidle : c.inFlight with
  | true =>
    rw [tryDispatch_of_busy (.inr hidle)]
    exact ⟨hopen,rfl⟩
  | false =>
    cases hnext : nextFrame c.readBuf with
    | none =>
      have hrest : restOf c.readBuf = c.readBuf := remainder_of_none hnext
      rw [(h.current hopen).rest,hrest] at hgood
      rw [tryDispatch_of_none hopen hidle hnext,if_neg (by simp [hgood])]
      exact ⟨hopen,rfl⟩
    | some r =>
      rw [tryDispatch_of_some hopen hidle hnext]
      exact ⟨hopen,rfl⟩

lemma Ordered.open_step {received : Bytes} (h : Ordered handler s received c)
    (hopen : c.close = false) (hempty : c.writeBuf = []) {e : PoolEvent} (he : Undisturbed e)
    (hgood : badMagic (restOf (received++e.bytes)) = false) :
    (c.step handler e).close = false ∧ (c.step handler e).writeBuf = [] := by
  cases e with
  | readable r =>
    cases r with
    | data chunk =>
      have hdispatch := (h.read chunk).open_tryDispatch hopen hgood
      exact ⟨hdispatch.1,hdispatch.2.trans hempty⟩
    | again => exact ⟨hopen,hempty⟩
    | eof | failed => exact he.elim
  | markClosed => exact he.elim
  | check i =>
    rw [Connection.step]
    split
    · rw [if_neg (by simp [hopen])]
      exact ⟨hopen,hempty⟩
    · exact ⟨hopen,hempty⟩
  | handle i =>
    rw [Connection.step]
    split
    · exact ⟨hopen,hempty⟩
    · exact ⟨hopen,hempty⟩
  | functor accept =>
    obtain rfl : accept = acceptAll := he
    have hnone : PoolEvent.bytes (.functor acceptAll) = [] := rfl
    rw [hnone,append_nil] at hgood
    rw [Connection.step]
    split
    · exact ⟨hopen,hempty⟩
    · rename_i response rest hpending
      obtain ⟨rfl,-⟩ := h.only_response hpending
      have hanswer := h.answer hopen hpending acceptAll
      rw [onWritable_acceptAll] at hanswer
      rw [runFunctor_of_open (c := { c with pending := [] }) hopen,onWritable_acceptAll]
      exact hanswer.open_tryDispatch hopen hgood

lemma open_run (hstream : restOf stream = []) {events : List PoolEvent} (hund : ∀ e ∈ events, Undisturbed e)
    (hread : received events <+: stream) :
    ((fresh s).run handler events).close = false ∧ ((fresh s).run handler events).writeBuf = [] := by
  induction events using reverseRecOn with
  | nil => exact ⟨rfl,rfl⟩
  | append_singleton events e ih =>
    have hcut : received (events++[e]) = received events ++ e.bytes := by simp [received]
    rw [hcut] at hread
    obtain ⟨hopen,hempty⟩ := ih (fun x hx => hund x (mem_append_left _ hx)) ((prefix_append _ _).trans hread)
    have hgood : badMagic (restOf (received events ++ e.bytes)) = false := by
      by_contra hbad
      rw [Bool.not_eq_false] at hbad
      obtain ⟨t,rfl⟩ := hread
      rw [(framesOf_append_of_badMagic hbad t).2] at hstream
      rw [(append_eq_nil_iff.mp hstream).1] at hbad
      cases hbad
    have hstep := ((ordered_fresh s).run events).open_step hopen hempty (hund e (by simp)) hgood
    rw [run,foldl_append]
    exact hstep

/-- A closed connection writes nothing more, and calls the handler only for a task that is in the pool already. -/
lemma closed_step (hclose : c.close = true) (e : PoolEvent) :
    (c.step handler e).close = true ∧ (c.step handler e).sent = c.sent ∧
      (c.tasks = [] → (c.step handler e).tasks = [] ∧ (c.step handler e).handled = c.handled) := by
  cases e with
  | readable r =>
    cases r with
    | data chunk =>
      have hstay : c.step handler (.readable (.data chunk)) = { c with readBuf := c.readBuf ++ chunk } :=
        tryDispatch_of_busy (c := { c with readBuf := c.readBuf ++ chunk }) (.inl hclose)
      rw [hstay]
      exact ⟨hclose,rfl,fun htasks => ⟨htasks,rfl⟩⟩
    | eof | failed => exact ⟨rfl,rfl,fun htasks => ⟨htasks,rfl⟩⟩
    | again => exact ⟨hclose,rfl,fun htasks => ⟨htasks,rfl⟩⟩
  | markClosed => exact ⟨rfl,rfl,fun htasks => ⟨htasks,rfl⟩⟩
  | check i =>
    rw [Connection.step]
    split
    · rename_i ht
      rw [if_pos hclose]
      refine ⟨hclose,rfl,fun htasks => ?_⟩
      rw [htasks] at ht
      cases ht
    · exact ⟨hclose,rfl,fun htasks => ⟨htasks,rfl⟩⟩
  | handle i =>
    rw [Connection.step]
    split
    · rename_i ht
      refine ⟨hclose,rfl,fun htasks => ?_⟩
      rw [htasks] at ht
      cases ht
    · exact ⟨hclose,rfl,fun htasks => ⟨htasks,rfl⟩⟩
  | functor accept =>
    rw [Connection.step]
    split
    · exact ⟨hclose,rfl,fun htasks => ⟨htasks,rfl⟩⟩
    · rename_i response rest _
      rw [runFunctor_of_closed (c := { c with pending := rest }) hclose]
      exact ⟨hclose,rfl,fun htasks => ⟨htasks,rfl⟩⟩

lemma closed_run (hclose : c.close = true) (events : List PoolEvent) :
    (c.run handler events).sent = c.sent ∧ (c.tasks = [] → (c.run handler events).handled = c.handled) := by
  induction events generalizing c with
  | nil => exact ⟨rfl,fun _ => rfl⟩
  | cons e events ih =>
    obtain ⟨hclose',hsent,htasks⟩ := @closed_step σ handler c hclose e
    obtain ⟨hsent',hhandled⟩ := ih hclose'
    refine ⟨hsent'.trans hsent,fun hnone => ?_⟩
    obtain ⟨hnone',hsame⟩ := htasks hnone
    exact (hhandled hnone').trans hsame

/-- The frames that were handed to the handler and the bytes that were written are the same. -/
def SameRequests (c c' : Connection σ) : Prop :=
  c.handled.map fst = c'.handled.map fst ∧ c.sent = c'.sent

lemma InOrder.sent_ne {received : Bytes} (h : InOrder handler s received c)
    (hanswers : ∀ raw s, (handler raw s).1 ≠ []) (hopen : c.close = false) (hempty : c.writeBuf = [])
    (hbusy : c.inFlight = true) : c.sent ≠ responses handler (framesOf received) s := by
  have hcur := h.current hopen
  have hone := h.busy
  rw [hbusy,if_pos rfl] at hone
  have hsent := h.written
  rw [hempty,append_nil] at hsent
  have hcalls : responses handler (c.handled.map fst) s = c.sent++c.pending.flatten := by
    rw [responses,h.calls,flatMap_def,hcur.answers,flatten_append,hsent]
  intro heq
  rw [hcur.frames,append_assoc,responses_append,hcalls,append_assoc,
    self_eq_append_right,append_eq_nil_iff] at heq
  obtain ⟨hpending,hlater⟩ := heq
  have hnotask : c.tasks = [] := by
    by_contra hne
    refine responses_ne_nil handler hanswers ?_ _ hlater
    simp [hne]
  rw [hnotask,length_nil,Nat.zero_add] at hone
  obtain ⟨response,hresponse⟩ := length_eq_one_iff.mp hone
  rw [hresponse,flatten_singleton] at hpending
  have hmem : response ∈ c.handled.map snd := by
    rw [hcur.answers,hresponse]
    exact mem_append_right _ (mem_singleton_self response)
  obtain ⟨r,hr,rfl⟩ := mem_map.mp hmem
  have hserved : r ∈ (serve handler (c.handled.map fst) s).1 := by
    rw [h.calls]
    exact hr
  exact ne_nil_of_mem_serve handler hanswers hserved hpending

lemma sync_of_stream (handler : Bytes → σ → Bytes × σ) (s : σ) (hstream : restOf stream = []) {chunks : List Bytes}
    (hchunks : IsSplit chunks stream) :
    (((fresh s).feed handler chunks).onReadableSync handler acceptAll .eof).handled.map fst = framesOf stream ∧
      (((fresh s).feed handler chunks).onReadableSync handler acceptAll .eof).sent =
        responses handler (framesOf stream) s := by
  have hfed := (@fed_fresh σ handler s).feed chunks
  rw [nil_append,hchunks.flatten] at hfed
  have hgood : badMagic (restOf stream) = false := by rw [hstream]; rfl
  have hsent := hfed.sent
  rw [hfed.flushed hgood,append_nil] at hsent
  exact ⟨by change ((fresh s).feed handler chunks).handled.map fst = _; rw [hfed.handled,map_fst_serve],hsent⟩

/-- Both modes execute and answer the same requests of a client that sends complete frames and closes its side if and
    only if no request is in flight when the loop reads the end of the stream. -/
theorem sameRequests_iff (handler : Bytes → σ → Bytes × σ) (hanswers : ∀ raw s, (handler raw s).1 ≠ []) (s : σ)
    (hstream : restOf stream = []) {chunks : List Bytes} (hchunks : IsSplit chunks stream)
    {before : List PoolEvent} (hund : ∀ e ∈ before, Undisturbed e) (hread : received before = stream)
    (after : List PoolEvent) :
    SameRequests ((fresh s).run handler (before ++ .readable .eof::after))
        (((fresh s).feed handler chunks).onReadableSync handler acceptAll .eof) ↔
      ((fresh s).run handler before).inFlight = false := by
  obtain ⟨hframes,hbytes⟩ := sync_of_stream handler s hstream hchunks
  obtain ⟨hopen,hempty⟩ := @open_run σ handler s stream hstream before hund (hread ▸ prefix_rfl)
  have hord : Ordered handler s stream ((fresh s).run handler before) := hread ▸ (ordered_fresh s).run before
  have hrun : (fresh s).run handler (before ++ .readable .eof::after) =
      { (fresh s).run handler before with close := true }.run handler after := by
    rw [run,foldl_append]
    rfl
  obtain ⟨hsent,hhandled⟩ := @closed_run σ handler { (fresh s).run handler before with close := true } rfl after
  rw [SameRequests,hframes,hbytes,hrun,hsent]
  constructor
  · rintro ⟨-,hall⟩
    by_contra hbusy
    rw [Bool.not_eq_false] at hbusy
    exact hord.sent_ne hanswers hopen hempty hbusy hall
  · intro hidle
    obtain ⟨htasks,hpending⟩ := hord.nothing_underway hidle
    have hcur := hord.current hopen
    have hdone : ((fresh s).run handler before).handled.map fst = framesOf stream := by
      rw [hcur.frames,htasks,framesOf,many_of_none (hord.idle hopen hidle).1]
      simp
    have hwritten := hord.written
    have hanswered := hcur.answers
    rw [hempty,append_nil] at hwritten
    rw [hpending,append_nil] at hanswered
    refine ⟨?_,?_⟩
    · rw [hhandled htasks]
      exact hdone
    · rw [← hdone,responses,hord.calls,flatMap_def,hanswered]
      exact hwritten

end Modes

def putFrame : Bytes := encodeRequest Cmd.put.code [1] [7]

/-- The response was written before the client closed its side. -/
theorem sameRequests_of_answered :
    ((fresh ()).run acknowledge [.readable (.data putFrame),.check 0,.handle 0,.functor acceptAll]).inFlight =
      false ∧
      SameRequests ((fresh ()).run acknowledge
          ([.readable (.data putFrame),.check 0,.handle 0,.functor acceptAll]++[.readable .eof]))
        (((fresh ()).feed acknowledge [putFrame]).onReadableSync acknowledge acceptAll .eof) := by
  refine ⟨by decide +kernel,
    (sameRequests_iff acknowledge acknowledge_ne_nil () (by decide +kernel : restOf putFrame = [])
    ⟨by decide +kernel,by decide +kernel⟩ ?_ (by decide +kernel) []).mpr (by decide +kernel)⟩
  intro e he
  simp only [mem_cons,not_mem_nil,or_false] at he
  rcases he with rfl | rfl | rfl | rfl
  · trivial
  · trivial
  · trivial
  · rfl

/-- The loop reads the end of the stream while the put waits in the pool: it is not executed at all. -/
theorem not_sameRequests_of_early_eof :
    IsSplit [putFrame] putFrame ∧ restOf putFrame = [] ∧
      ((fresh ()).run acknowledge [.readable (.data putFrame),.readable .eof,.check 0,.functor acceptAll]).handled =
        [] ∧
      ¬SameRequests
        ((fresh ()).run acknowledge [.readable (.data putFrame),.readable .eof,.check 0,.functor acceptAll])
        (((fresh ()).feed acknowledge [putFrame]).onReadableSync acknowledge acceptAll .eof) := by
  refine ⟨⟨by decide +kernel,by decide +kernel⟩,by decide +kernel,by decide +kernel,?_⟩
  rintro ⟨hframes,-⟩
  revert hframes
  decide +kernel

end Connection
end TitanKV.Minikv
