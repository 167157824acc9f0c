import TitanKV.Library.Runs
import TitanKV.Services.MiniKVClient

/-! Delivery of requests. Any number of clients run the loop of `roundTrip` against one server, each step on its
own: dialing, writing, reading, giving an attempt up. The network delivers what was written whenever it likes, and
the server executes each frame that it can read, also after the client has closed the connection. -/
namespace TitanKV.Services.Delivery
open Minikv List Function Option

/-- A call inside its loop: the attempt it is at, and whether it waits for the response. -/
structure Progress where
  call : ℕ
  request : Bytes
  attempt : ℕ
  waiting : Bool
  deriving DecidableEq, Repr

structure Client where
  conn : Option ℕ
  progress : Option Progress
  deriving DecidableEq, Repr

/-- One direction of a connection: the bytes the client has written, how many of them have arrived, and how many the
server has taken off its buffer. -/
structure Channel where
  stream : Bytes
  delivered : ℕ
  consumed : ℕ
  deriving DecidableEq, Repr

/-- Where a request was written. -/
structure Written where
  call : ℕ
  attempt : ℕ
  request : Bytes
  conn : ℕ
  offset : ℕ
  deriving DecidableEq, Repr

def Written.ticket (w : Written) : ℕ × ℕ := (w.call,w.attempt)

/-- A frame the server has executed, and the call and attempt it is the request of. -/
structure Execution where
  conn : ℕ
  frame : Bytes
  owner : Option (ℕ × ℕ)
  deriving DecidableEq, Repr

/-- `retried` records the calls that have gone over to their second attempt. -/
structure Net where
  clients : ℕ → Client
  channels : ℕ → Channel
  dials : ℕ
  calls : ℕ
  writes : List Written
  log : List Execution
  retried : List ℕ

def Net.init : Net := ⟨fun _ => ⟨none,none⟩,fun _ => ⟨[],0,0⟩,0,0,[],[],[]⟩

inductive Event
  | call (c : ℕ) (cmd : UInt8) (key value : Bytes)
  | dial (c : ℕ) (fails : Bool)
  | write (c : ℕ) (failsAfter : Option ℕ)
  | read (c : ℕ) (fails : Bool)
  | close (c : ℕ)
  | deliver (conn : ℕ) (n : ℕ)
  | serve (conn : ℕ)
  deriving DecidableEq, Repr

namespace Net

def setClient (s : Net) (c : ℕ) (client : Client) : Net := { s with clients := Function.update s.clients c client }

/-- `Write` puts the first `n` bytes of the request on the connection. -/
def wire (s : Net) (c conn : ℕ) (p : Progress) (n : ℕ) : Net :=
  let channel := s.channels conn
  { s with
    clients := Function.update s.clients c ⟨some conn,some { p with waiting := true }⟩
    channels := Function.update s.channels conn { channel with stream := channel.stream ++ p.request.take n }
    writes := s.writes ++ [⟨p.call,p.attempt,p.request,conn,channel.stream.length⟩] }

/-- `reset` and `continue`; behind the second attempt the loop is left. -/
def giveUp (s : Net) (c : ℕ) (p : Progress) : Net :=
  if p.attempt+1<2 then
    { s.setClient c ⟨none,some { p with attempt := p.attempt+1, waiting := false }⟩ with
      retried := s.retried ++ [p.call] }
  else s.setClient c ⟨none,none⟩

/-- The call whose request the frame is: it starts where the request was written, and it is the request. -/
def owner (s : Net) (conn offset : ℕ) (frame : Bytes) : Option (ℕ × ℕ) :=
  (s.writes.find? fun w => w.conn = conn ∧ w.offset = offset ∧ w.request = frame).map Written.ticket

def execute (s : Net) (conn : ℕ) (frame : Bytes) : Net :=
  let channel := s.channels conn
  { s with
    channels := Function.update s.channels conn { channel with consumed := channel.consumed+frame.length }
    log := s.log ++ [⟨conn,frame,s.owner conn channel.consumed frame⟩] }

def buffer (s : Net) (conn : ℕ) : Bytes :=
  ((s.channels conn).stream.take (s.channels conn).delivered).drop (s.channels conn).consumed

end Net

/-- A response is there once the server has taken the request off its buffer. -/
def Net.answered (s : Net) (p : Progress) : Bool :=
  s.writes.any fun w => w.ticket = (p.call,p.attempt) ∧ w.offset<(s.channels w.conn).consumed

def step (s : Net) : Event → Option Net
  | .call c cmd key value =>
    if (s.clients c).progress = none then
      some { s.setClient c ⟨(s.clients c).conn,some ⟨s.calls,encodeRequest cmd key value,0,false⟩⟩ with
        calls := s.calls+1 }
    else none
  | .dial c fails =>
    match s.clients c with
    | ⟨none,some p⟩ =>
      if fails then some (s.setClient c ⟨none,none⟩)
      else some { s.setClient c ⟨some s.dials,some p⟩ with dials := s.dials+1 }
    | _ => none
  | .write c failsAfter =>
    match s.clients c with
    | ⟨some conn,some p⟩ =>
      if p.waiting then none
      else
        match failsAfter with
        | none => some (s.wire c conn p p.request.length)
        | some n =>
          -- a `Write` that fails has not taken the whole request
          if n<p.request.length then some ((s.wire c conn p n).giveUp c { p with waiting := true }) else none
    | _ => none
  | .read c fails =>
    match s.clients c with
    | ⟨some conn,some p⟩ =>
      if p.waiting = false then none
      else if fails then some (s.giveUp c p)
      else if s.answered p then some (s.setClient c ⟨some conn,none⟩)
      else none
    | _ => none
  | .close c => if (s.clients c).progress = none then some (s.setClient c ⟨none,none⟩) else none
  | .deliver conn n =>
    let channel := s.channels conn
    if channel.delivered≤n ∧ n≤channel.stream.length then
      some { s with channels := Function.update s.channels conn { channel with delivered := n } }
    else none
  | .serve conn => (nextFrame (s.buffer conn)).map fun frame => s.execute conn frame.1

/-- How often the server has executed the request of a call. -/
def Net.executions (s : Net) (id : ℕ) : ℕ := s.log.countP fun e => e.owner.any fun t => t.1 = id

def Net.tickets (s : Net) : List (ℕ × ℕ) := s.log.filterMap Execution.owner

/-- A client gives the first attempt of the call up only if the server has not executed it, and the server does not
execute a first attempt that was given up. -/
def Careful (id : ℕ) (s : Net) : Event → Prop
  | .read c true => ∀ p ∈ (s.clients c).progress, p.call = id → p.attempt = 0 → (id,0) ∉ s.tickets
  | .serve conn => id ∈ s.retried → ∀ frame ∈ nextFrame (s.buffer conn),
      s.owner conn (s.channels conn).consumed frame.1 ≠ some (id,0)
  | _ => True

instance decidableCareful (id : ℕ) (s : Net) : ∀ e, Decidable (Careful id s e)
  | .read c true =>
      inferInstanceAs (Decidable (∀ p ∈ (s.clients c).progress, p.call = id → p.attempt = 0 → (id,0) ∉ s.tickets))
  | .serve conn => inferInstanceAs (Decidable (id ∈ s.retried →
      ∀ frame ∈ nextFrame (s.buffer conn), s.owner conn (s.channels conn).consumed frame.1 ≠ some (id,0)))
  | .read _ false | .call _ _ _ _ | .dial _ _ | .write _ _ | .close _ | .deliver _ _ => .isTrue trivial

/-- Attempts have distinct tickets: a call has at most two, is at the later one, and writes each of them once; a
ticket that was executed lies behind what the server has consumed. -/
structure Orderly (s : Net) : Prop where
  known : ∀ c p, (s.clients c).progress = some p → p.call<s.calls ∧
    (p.attempt = 0 ∨ p.attempt = 1 ∧ p.call ∈ s.retried)
  distinct : ∀ c c' p p', (s.clients c).progress = some p → (s.clients c').progress = some p' →
    p.call = p'.call → c = c'
  written : ∀ w ∈ s.writes, w.call<s.calls ∧ (w.attempt = 0 ∨ w.attempt = 1 ∧ w.call ∈ s.retried)
  behind : ∀ c p, (s.clients c).progress = some p → ∀ w ∈ s.writes, w.call = p.call →
    w.attempt<p.attempt ∨ w.attempt = p.attempt ∧ p.waiting = true
  nodup : (s.writes.map Written.ticket).Nodup
  logged : ∀ t ∈ s.tickets, ∃ w ∈ s.writes, w.ticket = t ∧ w.offset<(s.channels w.conn).consumed
  once : s.tickets.Nodup

section Steps
variable {s : Net} {c conn n id : ℕ} {p : Progress} {frame : Bytes}

lemma orderly_init : Orderly Net.init where
  known := by rintro c p ⟨⟩
  distinct := by rintro c c' p p' ⟨⟩
  written := by rintro w ⟨⟩
  behind := by rintro c p ⟨⟩
  nodup := .nil
  logged := by rintro t ⟨⟩
  once := .nil

lemma progress_update {clients : ℕ → Client} {client : Client} {c' : ℕ} {q : Progress}
    (h : (Function.update clients c client c').progress = some q) :
    c' = c ∧ client.progress = some q ∨ c' ≠ c ∧ (clients c').progress = some q := by
  by_cases hc : c' = c
  · subst hc
    rw [update_self] at h
    exact .inl ⟨rfl,h⟩
  · rw [update_of_ne hc] at h
    exact .inr ⟨hc,h⟩

lemma le_consumed_update {channel : Channel} (h : (s.channels conn).consumed≤channel.consumed) (k : ℕ) :
    (s.channels k).consumed≤(Function.update s.channels conn channel k).consumed := by
  by_cases hk : k = conn
  · rw [hk,update_self]
    exact h
  · rw [update_of_ne hk]

variable {s' : Net}

/-- A step that starts no attempt: no client gets anything new in progress, and what the server has consumed only
grows. -/
lemma Orderly.quiet (h : Orderly s)
    (hprogress : ∀ c p, (s'.clients c).progress = some p → (s.clients c).progress = some p)
    (hcalls : s'.calls = s.calls) (hwrites : s'.writes = s.writes) (hlog : s'.log = s.log)
    (hretried : s'.retried = s.retried) (hconsumed : ∀ k, (s.channels k).consumed≤(s'.channels k).consumed) :
    Orderly s' where
  known := by
    rw [hcalls,hretried]
    exact fun c p hp => h.known c p (hprogress c p hp)
  distinct := fun c c' p p' hp hp' => h.distinct c c' p p' (hprogress c p hp) (hprogress c' p' hp')
  written := by
    rw [hcalls,hretried,hwrites]
    exact h.written
  behind := by
    rw [hwrites]
    exact fun c p hp => h.behind c p (hprogress c p hp)
  nodup := by
    rw [hwrites]
    exact h.nodup
  logged := by
    rw [Net.tickets,hlog,hwrites]
    intro t ht
    obtain ⟨w,hw,hticket,hlt⟩ := h.logged t ht
    exact ⟨w,hw,hticket,hlt.trans_le (hconsumed w.conn)⟩
  once := by
    rw [Net.tickets,hlog]
    exact h.once

lemma Orderly.setClient (h : Orderly s) {client : Client}
    (hclient : client.progress = none ∨ client.progress = (s.clients c).progress) :
    Orderly (s.setClient c client) := by
  refine h.quiet (fun c' q hq => ?_) rfl rfl rfl rfl fun _ => le_rfl
  obtain ⟨rfl,hnew⟩ | ⟨-,hold⟩ := progress_update hq
  · obtain hnone | hsame := hclient
    · rw [hnone] at hnew
      cases hnew
    · rwa [← hsame]
  · exact hold

lemma Orderly.call (h : Orderly s) (request : Bytes) :
    Orderly { s.setClient c ⟨(s.clients c).conn,some ⟨s.calls,request,0,false⟩⟩ with calls := s.calls+1 } where
  known := by
    intro c' q hq
    obtain ⟨-,⟨⟩⟩ | ⟨-,hq⟩ := progress_update hq
    · exact ⟨Nat.lt_succ_self _,.inl rfl⟩
    · exact ⟨Nat.lt_succ_of_lt (h.known c' q hq).1,(h.known c' q hq).2⟩
  distinct := by
    intro c₁ c₂ q₁ q₂ h₁ h₂ heq
    obtain ⟨hc₁,⟨⟩⟩ | ⟨-,hold₁⟩ := progress_update h₁ <;> obtain ⟨hc₂,⟨⟩⟩ | ⟨-,hold₂⟩ := progress_update h₂
    · exact hc₁.trans hc₂.symm
    · exact absurd heq (h.known _ _ hold₂).1.ne'
    · exact absurd heq (h.known _ _ hold₁).1.ne
    · exact h.distinct c₁ c₂ q₁ q₂ hold₁ hold₂ heq
  written := fun w hw => ⟨Nat.lt_succ_of_lt (h.written w hw).1,(h.written w hw).2⟩
  behind := by
    intro c' q hq w hw hcall
    obtain ⟨-,⟨⟩⟩ | ⟨-,hq⟩ := progress_update hq
    · exact absurd hcall (h.written w hw).1.ne
    · exact h.behind c' q hq w hw hcall
  nodup := h.nodup
  logged := h.logged
  once := h.once

section
variable (h : Orderly s) (hp : (s.clients c).progress = some p)
include h hp

lemma Orderly.distinct_update {q : Progress} {k : Option ℕ} (hcall : q.call = p.call)
    (c₁ c₂ : ℕ) (q₁ q₂ : Progress) (h₁ : (Function.update s.clients c ⟨k,some q⟩ c₁).progress = some q₁)
    (h₂ : (Function.update s.clients c ⟨k,some q⟩ c₂).progress = some q₂) (heq : q₁.call = q₂.call) : c₁ = c₂ := by
  obtain ⟨rfl,⟨⟩⟩ | ⟨-,hold₁⟩ := progress_update h₁ <;> obtain ⟨rfl,⟨⟩⟩ | ⟨-,hold₂⟩ := progress_update h₂
  · rfl
  · exact h.distinct _ _ _ _ hp hold₂ (hcall.symm.trans heq)
  · exact h.distinct _ _ _ _ hold₁ hp (heq.trans hcall)
  · exact h.distinct _ _ _ _ hold₁ hold₂ heq

lemma Orderly.attempt_lt (hwaiting : p.waiting = false) {w : Written} (hw : w ∈ s.writes) (hcall : w.call = p.call) :
    w.attempt<p.attempt := by
  obtain hlt | ⟨-,hwait⟩ := h.behind c p hp w hw hcall
  · exact hlt
  · exact absurd (hwaiting.symm.trans hwait) (by decide)

lemma Orderly.wire (hwaiting : p.waiting = false) :
    Orderly (s.wire c conn p n) where
  known := by
    intro c' q hq
    obtain ⟨-,⟨⟩⟩ | ⟨-,hq⟩ := progress_update hq
    · exact h.known c p hp
    · exact h.known c' q hq
  distinct := h.distinct_update hp rfl
  written := by
    intro w hw
    obtain hw | hw := mem_append.mp hw
    · exact h.written w hw
    · obtain rfl := mem_singleton.mp hw
      exact h.known c p hp
  behind := by
    intro c' q hq w hw hcall
    obtain hw | hw := mem_append.mp hw
    · obtain ⟨-,⟨⟩⟩ | ⟨-,hq⟩ := progress_update hq
      · exact .inl (h.attempt_lt hp hwaiting hw hcall)
      · exact h.behind c' q hq w hw hcall
    · obtain rfl := mem_singleton.mp hw
      obtain ⟨-,⟨⟩⟩ | ⟨hne,hq⟩ := progress_update hq
      · exact .inr ⟨rfl,rfl⟩
      · exact absurd (h.distinct c' c q p hq hp hcall.symm) hne
  nodup := by
    rw [Net.wire,map_append,nodup_append]
    refine ⟨h.nodup,by simp,?_⟩
    intro t ht t' ht' heq
    obtain ⟨w,hw,rfl⟩ := mem_map.mp ht
    obtain rfl := mem_singleton.mp ht'
    obtain ⟨hcall,hattempt⟩ := Prod.mk.inj heq
    exact absurd hattempt (h.attempt_lt hp hwaiting hw hcall).ne
  logged := by
    intro t ht
    obtain ⟨w,hw,hticket,hlt⟩ := h.logged t ht
    refine ⟨w,mem_append_left _ hw,hticket,hlt.trans_le (le_consumed_update ?_ w.conn)⟩
    exact le_rfl
  once := h.once

lemma Orderly.giveUp : Orderly (s.giveUp c p) := by
  rw [Net.giveUp]
  split_ifs with hattempt
  · have hfirst : p.attempt = 0 := by omega
    refine { h with known := ?_, distinct := h.distinct_update hp rfl, written := ?_, behind := ?_ }
    · intro c' q hq
      obtain ⟨-,⟨⟩⟩ | ⟨-,hq⟩ := progress_update hq
      · exact ⟨(h.known c p hp).1,.inr ⟨by rw [hfirst],by simp⟩⟩
      · obtain ⟨hlt,hzero | ⟨hone,hmem⟩⟩ := h.known c' q hq
        · exact ⟨hlt,.inl hzero⟩
        · exact ⟨hlt,.inr ⟨hone,mem_append_left _ hmem⟩⟩
    · intro w hw
      obtain ⟨hlt,hzero | ⟨hone,hmem⟩⟩ := h.written w hw
      · exact ⟨hlt,.inl hzero⟩
      · exact ⟨hlt,.inr ⟨hone,mem_append_left _ hmem⟩⟩
    · intro c' q hq w hw hcall
      obtain ⟨-,⟨⟩⟩ | ⟨-,hq⟩ := progress_update hq
      · obtain hlt | ⟨heq,-⟩ := h.behind c p hp w hw hcall
        · exact .inl (Nat.lt_succ_of_lt hlt)
        · exact .inl (Nat.lt_succ_of_le heq.le)
      · exact h.behind c' q hq w hw hcall
  · exact h.setClient (.inl rfl)

end

lemma exists_of_owner {t : ℕ × ℕ} {offset : ℕ} (h : s.owner conn offset frame = some t) :
    ∃ w ∈ s.writes, w.ticket = t ∧ w.conn = conn ∧ w.offset = offset := by
  obtain ⟨w,hw,rfl⟩ := map_eq_some_iff.mp h
  have hfound : w.conn = conn ∧ w.offset = offset ∧ w.request = frame := by simpa using find?_some hw
  exact ⟨w,mem_of_find?_eq_some hw,rfl,hfound.1,hfound.2.1⟩

lemma tickets_execute :
    (s.execute conn frame).tickets = s.tickets++(s.owner conn (s.channels conn).consumed frame).toList := by
  rw [Net.tickets,Net.execute,filterMap_append]
  cases s.owner conn (s.channels conn).consumed frame <;> simp [Net.tickets]

lemma Orderly.execute (h : Orderly s) (hframe : 0<frame.length) : Orderly (s.execute conn frame) := by
  have hgrows (k : ℕ) : (s.channels k).consumed≤((s.execute conn frame).channels k).consumed :=
    le_consumed_update (Nat.le_add_right _ _) k
  have hconsumed : (s.channels conn).consumed<((s.execute conn frame).channels conn).consumed := by
    show _ < (Function.update s.channels conn _ conn).consumed
    rw [update_self]
    exact Nat.lt_add_of_pos_right hframe
  refine { h with logged := ?_, once := ?_ }
  · intro t ht
    rw [tickets_execute] at ht
    obtain ht | ht := mem_append.mp ht
    · obtain ⟨w,hw,hticket,hlt⟩ := h.logged t ht
      exact ⟨w,hw,hticket,hlt.trans_le (hgrows w.conn)⟩
    · obtain ⟨w,hw,hticket,rfl,hoffset⟩ := exists_of_owner (mem_toList.mp ht)
      exact ⟨w,hw,hticket,hoffset ▸ hconsumed⟩
  · rw [tickets_execute,nodup_append]
    refine ⟨h.once,?_,?_⟩
    · cases s.owner conn (s.channels conn).consumed frame <;> simp
    · intro t ht t' ht' heq
      subst heq
      obtain ⟨w,hw,hticket,hlt⟩ := h.logged t ht
      obtain ⟨w',hw',hticket',hconn,hoffset⟩ := exists_of_owner (mem_toList.mp ht')
      obtain rfl := inj_on_of_nodup_map h.nodup hw hw' (hticket.trans hticket'.symm)
      rw [hconn,hoffset] at hlt
      exact lt_irrefl _ hlt

lemma nextFrame_pos {buf : Bytes} {frame : Bytes × Bytes} (h : nextFrame buf = some frame) : 0<frame.1.length := by
  obtain ⟨-,-,htotal,hframe,-⟩ := nextFrame_eq_some h
  rw [hframe,length_take_of_le htotal]
  exact Nat.add_pos_left (Nat.add_pos_left (by decide) _) _

variable {e : Event}

/-- What a step does, apart from the guards of the quiet ones. -/
lemma step_cases (hstep : step s e = some s') :
    (∃ c request, s' = { s.setClient c ⟨(s.clients c).conn,some ⟨s.calls,request,0,false⟩⟩ with
      calls := s.calls+1 }) ∨
      (∃ c client, (client.progress = none ∨ client.progress = (s.clients c).progress) ∧
        ∃ dials, s' = { s.setClient c client with dials := dials }) ∨
      (∃ c conn p n, s.clients c = ⟨some conn,some p⟩ ∧ p.waiting = false ∧
        (s' = s.wire c conn p n ∨ s' = (s.wire c conn p n).giveUp c { p with waiting := true })) ∨
      (∃ c conn p, e = .read c true ∧ s.clients c = ⟨some conn,some p⟩ ∧ s' = s.giveUp c p) ∨
      (∃ conn n,
        s' = { s with channels := Function.update s.channels conn { s.channels conn with delivered := n } }) ∨
      ∃ conn frame, e = .serve conn ∧ frame ∈ nextFrame (s.buffer conn) ∧ s' = s.execute conn frame.1 := by
  cases e with
  | call c cmd key value =>
    simp only [step,ite_none_right_eq_some,some.injEq] at hstep
    exact .inl ⟨c,_,hstep.2.symm⟩
  | dial c fails =>
    rw [step] at hstep
    split at hstep
    · rename_i p hclient
      split_ifs at hstep
      · exact .inr (.inl ⟨c,_,.inl rfl,s.dials,(some.inj hstep).symm⟩)
      · exact .inr (.inl ⟨c,_,.inr (by rw [hclient]),_,(some.inj hstep).symm⟩)
    · cases hstep
  | write c failsAfter =>
    rw [step] at hstep
    split at hstep
    · rename_i conn p hclient
      split_ifs at hstep with hwaiting
      split at hstep
      · exact .inr (.inr (.inl ⟨c,conn,p,_,hclient,by simpa using hwaiting,.inl (some.inj hstep).symm⟩))
      · split_ifs at hstep
        exact .inr (.inr (.inl ⟨c,conn,p,_,hclient,by simpa using hwaiting,.inr (some.inj hstep).symm⟩))
    · cases hstep
  | read c fails =>
    rw [step] at hstep
    split at hstep
    · rename_i conn p hclient
      split_ifs at hstep with _ hfails
      · subst hfails
        exact .inr (.inr (.inr (.inl ⟨c,conn,p,rfl,hclient,(some.inj hstep).symm⟩)))
      · exact .inr (.inl ⟨c,_,.inl rfl,s.dials,(some.inj hstep).symm⟩)
    · cases hstep
  | close c =>
    simp only [step,ite_none_right_eq_some,some.injEq] at hstep
    exact .inr (.inl ⟨c,_,.inl rfl,s.dials,hstep.2.symm⟩)
  | deliver conn n =>
    simp only [step,ite_none_right_eq_some,some.injEq] at hstep
    exact .inr (.inr (.inr (.inr (.inl ⟨conn,n,hstep.2.symm⟩))))
  | serve conn =>
    obtain ⟨frame,hframe,rfl⟩ := map_eq_some_iff.mp hstep
    exact .inr (.inr (.inr (.inr (.inr ⟨conn,frame,rfl,hframe,rfl⟩))))

lemma Orderly.step (h : Orderly s) (hstep : step s e = some s') : Orderly s' := by
  obtain ⟨c,request,rfl⟩ | ⟨c,client,hclient,dials,rfl⟩ | ⟨c,conn,p,n,hclient,hwaiting,hs'⟩ |
    ⟨c,conn,p,-,hclient,rfl⟩ | ⟨conn,n,rfl⟩ | ⟨conn,frame,-,hframe,rfl⟩ := step_cases hstep
  · exact h.call request
  · exact (h.setClient hclient).quiet (fun _ _ hp => hp) rfl rfl rfl rfl fun _ => le_rfl
  · have hwire : Orderly (s.wire c conn p n) := h.wire (by rw [hclient]) hwaiting
    obtain rfl | rfl := hs'
    · exact hwire
    · refine hwire.giveUp ?_
      show (Function.update s.clients c _ c).progress = _
      rw [update_self]
  · exact h.giveUp (by rw [hclient])
  · exact h.quiet (fun _ _ hp => hp) rfl rfl rfl rfl (le_consumed_update le_rfl)
  · exact h.execute (nextFrame_pos hframe)

/-- Once the call is at its second attempt, its first one is not among the executed ones. -/
def Unrepeated (id : ℕ) (s : Net) : Prop := id ∈ s.retried → (id,0) ∉ s.tickets

lemma Orderly.not_mem_tickets (h : Orderly s) (hp : (s.clients c).progress = some p) (hwaiting : p.waiting = false) :
    (p.call,p.attempt) ∉ s.tickets := by
  intro hmem
  obtain ⟨w,hw,hticket,-⟩ := h.logged _ hmem
  obtain ⟨hcall,hattempt⟩ := Prod.mk.inj hticket
  exact absurd hattempt (h.attempt_lt hp hwaiting hw hcall).ne

lemma Unrepeated.giveUp (h : Unrepeated id s) (hunexecuted : p.call = id → p.attempt = 0 → (id,0) ∉ s.tickets) :
    Unrepeated id (s.giveUp c p) := by
  rw [Net.giveUp]
  split_ifs with hattempt
  · intro hmem
    obtain hmem | hmem := mem_append.mp hmem
    · exact h hmem
    · exact hunexecuted (mem_singleton.mp hmem).symm (by omega)
  · exact h

lemma Unrepeated.step (h : Unrepeated id s) (horderly : Orderly s) (hcareful : Careful id s e)
    (hstep : step s e = some s') : Unrepeated id s' := by
  obtain ⟨c,request,rfl⟩ | ⟨c,client,-,dials,rfl⟩ | ⟨c,conn,p,n,hclient,hwaiting,hs'⟩ | ⟨c,conn,p,rfl,hclient,rfl⟩ |
    ⟨conn,n,rfl⟩ | ⟨conn,frame,rfl,hframe,rfl⟩ := step_cases hstep
  · exact h
  · exact h
  · have hwire : Unrepeated id (s.wire c conn p n) := h
    obtain rfl | rfl := hs'
    · exact hwire
    · refine hwire.giveUp ?_
      intro hcall hattempt
      have hunwritten : (p.call,p.attempt) ∉ s.tickets := horderly.not_mem_tickets (by rw [hclient]) hwaiting
      rwa [show p.call = id from hcall,show p.attempt = 0 from hattempt] at hunwritten
  · exact h.giveUp (hcareful p (by simp [hclient]))
  · exact h
  · intro hmem
    rw [tickets_execute,mem_append,mem_toList]
    rintro (ht | ht)
    · exact h hmem ht
    · exact hcareful hmem frame hframe ht

end Steps

lemma countP_le_one {α : Type*} {l : List α} {q : α → Bool} (hl : l.Nodup)
    (h : ∀ a ∈ l, ∀ b ∈ l, q a → q b → a = b) :
    l.countP q ≤ 1 := by
  rw [countP_eq_length_filter]
  have hnodup := hl.filter q
  match hfilter : l.filter q with
  | [] => simp
  | [a] => simp
  | a::b::rest =>
    have hmem {x : α} (hx : x ∈ l.filter q) := mem_filter.mp hx
    have ha := hmem (hfilter ▸ mem_cons_self)
    have hb := hmem (hfilter ▸ mem_cons_of_mem _ mem_cons_self)
    rw [hfilter,h a ha.1 b hb.1 ha.2 hb.2] at hnodup
    simp at hnodup

lemma executions_eq (s : Net) (id : ℕ) : s.executions id = s.tickets.countP fun t => t.1 = id := by
  rw [Net.executions,Net.tickets,countP_filterMap]
  refine countP_congr fun e _ => ?_
  cases e.owner <;> simp

/-- The request of a call is executed at most once in every run in which no first attempt is both executed and given
up. -/
theorem executions_le_one_of_careful {es : List Event} {s : Net} (id : ℕ)
    (hcareful : Runs.Meets step (Careful id) Net.init es) (hrun : Runs.run step Net.init es = some s) :
    s.executions id ≤ 1 := by
  have hinvariant (s : Net) (e : Event) (s' : Net) (h : Orderly s ∧ Unrepeated id s) (hc : Careful id s e)
    (hstep : step s e = some s') :
      Orderly s' ∧ Unrepeated id s' := ⟨h.1.step hstep,h.2.step h.1 hc hstep⟩
  obtain ⟨horderly,hunrepeated⟩ := Runs.invariant hinvariant hcareful hrun ⟨orderly_init,fun h => by cases h⟩
  -- a ticket of the call is its first attempt or, once it is retried, its second
  have hticket {t : ℕ × ℕ} (ht : t ∈ s.tickets) (hid : t.1 = id) : t = (id,0) ∨ t = (id,1) ∧ id ∈ s.retried := by
    obtain ⟨w,hw,rfl,-⟩ := horderly.logged t ht
    obtain ⟨-,hzero | ⟨hone,hmem⟩⟩ := horderly.written w hw
    · exact .inl (Prod.ext hid hzero)
    · exact .inr ⟨Prod.ext hid hone,hid ▸ hmem⟩
  rw [executions_eq]
  refine countP_le_one horderly.once fun a ha b hb hqa hqb => ?_
  obtain rfl | ⟨rfl,hmem⟩ := hticket ha (by simpa using hqa) <;> obtain rfl | ⟨rfl,hmem'⟩ :=
    hticket hb (by simpa using hqb)
  · rfl
  · exact absurd ha (hunrepeated hmem')
  · exact absurd hb (hunrepeated hmem)
  · rfl

def putEvent (c : ℕ) (key value : UInt8) : Event := .call c Cmd.put.code [key] [value]

/-- The first attempt breaks off inside `Write`; the second one is executed. -/
theorem executions_of_broken_write :
    ∃ s, Runs.run step Net.init [putEvent 0 107 1,.dial 0 false,.write 0 (some 5),.deliver 0 5,.dial 0 false,
      .write 0 none,.deliver 1 13,.serve 1,.read 0 false] = some s ∧ s.tickets = [(0,1)] ∧ s.executions 0 ≤ 1 := by
  have hrun :
    ((Runs.run step Net.init [putEvent 0 107 1,.dial 0 false,.write 0 (some 5),.deliver 0 5,.dial 0 false,
    .write 0 none,
      .deliver 1 13,.serve 1,.read 0 false]).map Net.tickets) = some [(0,1)] := by decide +kernel
  obtain ⟨s,hs,htickets⟩ := map_eq_some_iff.mp hrun
  exact ⟨s,hs,htickets,executions_le_one_of_careful 0 (by decide +kernel) hs⟩

/-- The response to a put is lost, another client writes the key, and the retry puts the old value again. -/
def lostResponse : List Event :=
  [putEvent 0 107 1,.dial 0 false,.write 0 none,.deliver 0 13,.serve 0,.read 0 true,
    putEvent 1 107 2,.dial 1 false,.write 1 none,.deliver 1 13,.serve 1,.read 1 false,
    .dial 0 false,.write 0 none,.deliver 2 13,.serve 2,.read 0 false]

theorem executed_twice_of_lostResponse :
    (Runs.run step Net.init lostResponse).map (fun s => (s.executions 0,s.log.map Execution.frame)) =
      some (2,[encodeRequest Cmd.put.code [107] [1],encodeRequest Cmd.put.code [107] [2],
        encodeRequest Cmd.put.code [107] [1]]) := by
  decide +kernel

end TitanKV.Services.Delivery
