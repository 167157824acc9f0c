import TitanKV.Library.Runs
import TitanKV.Minikv.DBImpl

/-! Group commit. Threads call `write` at any time; what they do under `write_mutex_` is one step
each, except for `doWriteGroup`, whose inserts are steps of their own because readers that hold a
MemTable read it without the lock. -/
namespace TitanKV.Minikv
open Option

/-- Where a call of `write` is: asleep until its entry is done, asleep until its group is full or
the timeout fires, or back with a status. -/
inductive CallState
  | following
  | leading
  | returned (status : Status)
  deriving DecidableEq, Repr

/-- A call with its batch; `result` is the status of its `GroupEntry` once that is done. -/
structure WriteCall where
  batch : WriteBatch
  result : Option Status
  state : CallState
  deriving DecidableEq, Repr

/-- An entry of `group_entries_`. -/
structure QueuedWrite where
  call : ℕ
  batch : WriteBatch
  sync : Bool
  deriving DecidableEq, Repr

/-- A batch that was handed to `doWriteGroup`, with the base that `fetch_add` returned for it. -/
structure Reservation where
  call : ℕ
  base : ℕ
  batch : WriteBatch
  deriving DecidableEq, Repr

/-- One call of `doWriteGroup`: what it added to the WAL, the MemTable it applies to, counted from
the first, the status it returns and the inserts it has still to make. -/
structure Commit where
  leader : ℕ
  batches : List Reservation
  written : Bytes
  table : ℕ
  status : Status
  todo : List (ℕ × BatchOp)

/-- One `fetch_add` for each batch, in the order of the queue. -/
def reserve (seq : ℕ) : List QueuedWrite → List Reservation
  | [] => []
  | q::queue => ⟨q.call,seq,q.batch⟩::reserve (seq+q.batch.length) queue

def Reservation.inserts (r : Reservation) : List (ℕ × BatchOp) :=
  r.batch.zipIdx (r.base+1) |>.map fun p => (p.2,p.1)

/-- The members of `DBImpl` that writers and readers use. `retired` are the WAL files before the
current one and `frozen` the MemTables before the active one; `history` lists the calls of
`doWriteGroup` that are over, and a reader has taken the pointers of all MemTables up to a number. -/
structure Writers where
  memtableSize : ℕ
  walSync : Bool
  leaderActive : Bool
  groupEntries : List QueuedWrite
  calls : ℕ → Option WriteCall
  seq : ℕ
  retired : List Bytes
  wal : Bytes
  walOpen : Bool
  frozen : List MemTable
  memtable : MemTable
  commit : Option Commit
  history : List Commit
  readers : ℕ → Option ℕ

/-- A step of a thread. The outcomes of system calls are part of it: of the two writes of
`WAL::append`, of `fdatasync` and of the `open` of the next WAL file. -/
inductive WriterEvent
  | enter (call : ℕ) (batch : WriteBatch) (sync : Bool)
  | lead (call : ℕ) (header payload : WriteOutcome) (synced : Bool)
  | insert
  | finish (opened : Bool)
  | wake (call : ℕ)
  | takePointers (reader : ℕ)

namespace Writers
variable (s : Writers)

def start (memtableSize : ℕ) (walSync : Bool) (seq : ℕ) (wal : Bytes) (memtable : MemTable) : Writers where
  memtableSize := memtableSize
  walSync := walSync
  leaderActive := false
  groupEntries := []
  calls _ := none
  seq := seq
  retired := []
  wal := wal
  walOpen := true
  frozen := []
  memtable := memtable
  commit := none
  history := []
  readers _ := none

/-- The caller queues its batch; the first one of a group leads it. -/
def join (call : ℕ) (batch : WriteBatch) (sync : Bool) : Writers :=
  { s with
    leaderActive := true
    groupEntries := s.groupEntries++[⟨call,batch,sync⟩]
    calls := Function.update s.calls call
      (some ⟨batch,none,if s.leaderActive then .following else .leading⟩) }

def append (data : Bytes) (header payload : WriteOutcome) : Status × Bytes :=
  if s.walOpen then walAppend s.wal data header payload else (.IOError "WAL not open",s.wal)

/-- `doWriteGroup` up to its inserts; a failed append or sync skips them. -/
def beginCommit (leader : ℕ) (header payload : WriteOutcome) (synced : Bool) : Writers :=
  let batches := reserve s.seq s.groupEntries
  let appended := s.append (encodeGroup (batches.map Reservation.batch)) header payload
  let status :=
    if appended.1.ok = false then appended.1
    else if (s.walSync && s.groupEntries.any QueuedWrite.sync && !synced) = true then .IOError "WAL fsync failed"
    else .Ok
  { s with
    leaderActive := false
    groupEntries := []
    seq := s.seq+(s.groupEntries.map fun q => q.batch.length).sum
    wal := appended.2
    commit := some
      { leader := leader
        batches := batches
        written := appended.2.drop s.wal.length
        table := s.frozen.length
        status := status
        todo := if status.ok then batches.flatMap Reservation.inserts else [] } }

def insertOp (c : Commit) (seq : ℕ) (op : BatchOp) (todo : List (ℕ × BatchOp)) : Writers :=
  { s with
    memtable := s.memtable.put op.key op.value seq (op.type = .delete)
    commit := some { c with todo := todo } }

/-- `rotateWal` retires the old WAL file and installs the next one, whether or not that could be opened. -/
def maybeFlush (opened : Bool) : Writers :=
  if s.memtable.approximateMemoryUsage<s.memtableSize then s
  else
    { s with
      frozen := s.frozen++[s.memtable]
      memtable := .empty
      retired := s.retired++[s.wal]
      wal := []
      walOpen := opened }

def settle (c : Commit) : Writers :=
  { s with
    calls := fun call => (s.calls call).map fun w =>
      { w with
        result := if c.batches.any fun r => r.call = call then some c.status else w.result
        state := if call = c.leader then .returned c.status else w.state }
    commit := none
    history := s.history ++ [c] }

def wakeUp (call : ℕ) (batch : WriteBatch) (status : Status) : Writers :=
  { s with calls := Function.update s.calls call (some ⟨batch,some status,.returned status⟩) }

def hold (reader : ℕ) : Writers :=
  { s with readers := Function.update s.readers reader (some s.frozen.length) }

/-- The lock is free unless a `doWriteGroup` is going on. -/
def step : WriterEvent → Option Writers
  | .enter call batch sync =>
    if s.commit.isSome || (s.calls call).isSome then none else some (s.join call batch sync)
  | .lead call header payload synced =>
    if s.commit.isSome then none
    else if (s.calls call).map WriteCall.state = some .leading then
      some (s.beginCommit call header payload synced)
    else none
  | .insert =>
    match s.commit with
    | none => none
    | some c =>
      match c.todo with
      | [] => none
      | (seq,op)::todo => some (s.insertOp c seq op todo)
  | .finish opened =>
    match s.commit with
    | none => none
    | some c =>
      match c.todo with
      | [] => some ((if c.status.ok then s.maybeFlush opened else s).settle c)
      | _::_ => none
  | .wake call =>
    if s.commit.isSome then none
    else
      match s.calls call with
      | some ⟨batch,some status,.following⟩ => some (s.wakeUp call batch status)
      | some ⟨_,none,.following⟩ => some s
      | _ => none
  | .takePointers reader => if s.commit.isSome then none else some (s.hold reader)

def commits : List Commit := s.history++s.commit.toList

def handed : List Reservation := s.commits.flatMap Commit.batches

def tableAt (id : ℕ) : Option MemTable := (s.frozen++[s.memtable])[id]?

/-- What a step can do, with what its guards say. -/
inductive Step (s : Writers) : Writers → Prop
  | join {call : ℕ} {batch : WriteBatch} {sync : Bool} (free : s.commit = none)
    (new : s.calls call = none) : Step s (s.join call batch sync)
  | lead {call : ℕ} {w : WriteCall} {header payload : WriteOutcome} {synced : Bool}
    (free : s.commit = none) (called : s.calls call = some w) (leading : w.state = .leading) :
    Step s (s.beginCommit call header payload synced)
  | insert {c : Commit} {seq : ℕ} {op : BatchOp} {todo : List (ℕ × BatchOp)} (busy : s.commit = some c)
    (next : c.todo = (seq,op)::todo) : Step s (s.insertOp c seq op todo)
  | flush {c : Commit} {opened : Bool} (busy : s.commit = some c) (applied : c.todo = [])
    (ok : c.status.ok = true) : Step s ((s.maybeFlush opened).settle c)
  | abort {c : Commit} (busy : s.commit = some c) (applied : c.todo = [])
    (failed : c.status.ok = false) : Step s (s.settle c)
  | wake {call : ℕ} {batch : WriteBatch} {status : Status} (free : s.commit = none)
    (done : s.calls call = some ⟨batch,some status,.following⟩) : Step s (s.wakeUp call batch status)
  | sleep : Step s s
  | hold {reader : ℕ} (free : s.commit = none) : Step s (s.hold reader)

variable {s} {s' : Writers} {e : WriterEvent}

theorem step_sound (h : s.step e = some s') : s.Step s' := by
  cases e with
  | enter call batch sync =>
    rw [step] at h
    split at h
    · cases h
    · rename_i hguard
      obtain ⟨hcommit,hcall⟩ : s.commit = none ∧ s.calls call = none := by simpa using hguard
      exact some.inj h ▸ .join hcommit hcall
  | lead call header payload synced =>
    rw [step] at h
    split at h
    · cases h
    · rename_i hfree
      split at h
      · rename_i hstate
        obtain ⟨w,hw,hleading⟩ := map_eq_some_iff.mp hstate
        exact some.inj h ▸ .lead (by simpa using hfree) hw hleading
      · cases h
  | insert =>
    rw [step] at h
    split at h
    · cases h
    · rename_i c hc
      split at h
      · cases h
      · rename_i seq op todo htodo
        exact some.inj h ▸ .insert hc htodo
  | finish opened =>
    rw [step] at h
    split at h
    · cases h
    · rename_i c hc
      split at h
      · rename_i htodo
        obtain rfl := some.inj h
        cases hok : c.status.ok with
        | true => exact .flush hc htodo hok
        | false => exact .abort hc htodo hok
      · cases h
  | wake call =>
    rw [step] at h
    split at h
    · cases h
    · rename_i hfree
      split at h
      · rename_i batch status hw
        exact some.inj h ▸ .wake (by simpa using hfree) hw
      · exact some.inj h ▸ .sleep
      · cases h
  | takePointers reader =>
    rw [step] at h
    split at h
    · cases h
    · rename_i hfree
      exact some.inj h ▸ .hold (by simpa using hfree)

theorem reached {Inv : Writers → Prop} (hstep : ∀ s s', Inv s → s.Step s' → Inv s') {events : List WriterEvent}
    (hrun : Runs.run step s events = some s') (h : Inv s) : Inv s' :=
  Runs.invariant (C := fun _ _ => True) (fun _ _ _ h _ hs => hstep _ _ h (step_sound hs))
    (Runs.meets_of_forall fun _ _ _ => trivial) hrun h

end Writers
end TitanKV.Minikv
