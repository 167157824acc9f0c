import TitanKV.Library.Runs
import TitanKV.Minikv.Sequence

/-! The database as a process that may die between any two system calls. A writer and the
flush thread of a session run side by side, each one call at a time; a crash leaves the
files as they are, and the next `open` runs the calls of `recover`, which a crash may cut
short as well. -/
namespace TitanKV.Minikv
open List

/-- The thread inside `doWriteGroup`: the calls of its WAL append still to come, or a group
that is in the MemTable but not acknowledged. -/
inductive Writer
  | idle
  | writing (group : WriteGroup) (rest : List FsOp)
  | applied (group : WriteGroup)

/-- The flush thread: the table it builds, if any, and the calls still to come. -/
inductive Flusher
  | idle
  | flushing (entry : FlushEntry) (path : Option TablePath) (rest : List FsOp)

inductive Proc
  | down (disk : Disk)
  | recovering (start disk : Disk) (rest : List FsOp)
  | up (db : DBImpl) (writer : Writer) (flusher : Flusher)

/-- A group whose WAL append completed. -/
structure Logged where
  group : WriteGroup
  acknowledged : Bool

structure System where
  proc : Proc
  history : List Logged

inductive Step
  | start
  | recoverCall
  | opened
  | beginWrite (group : WriteGroup)
  | writerCall
  | apply (full : Bool)
  | acknowledge
  | beginFlush
  | flusherCall
  | endFlush
  | crash

/-- The group whose append is complete but which nobody was told about. -/
def Writer.orphan : Writer → List Logged
  | writing group [] => [⟨group,false⟩]
  | applied group => [⟨group,false⟩]
  | _ => []

def Proc.disk : Proc → Disk
  | down d => d
  | recovering _ d _ => d
  | up db _ _ => db.disk

def Proc.orphan : Proc → List Logged
  | up _ writer _ => writer.orphan
  | _ => []

namespace DBImpl

def applyWrite (db : DBImpl) (group : WriteGroup) : DBImpl :=
  { db with
    seq := db.seq+group.flatten.length
    memtable := ⟨db.memtable.id,applyGroup db.memtable.table db.seq group⟩ }

/-- The flush thread takes the oldest entry and, if it has data, a file number. -/
def takeFlush (db : DBImpl) (queue : List FlushEntry) (entry : FlushEntry) : DBImpl × Flusher :=
  if entry.memtable.table.isEmpty then
    ({ db with flushQueue := queue },
      .flushing entry none (unlinkOps entry.wals))
  else
    let path : TablePath := ⟨0,db.version.nextFileNumber⟩
    ({ db with flushQueue := queue, version := db.version.advance },
      .flushing entry (some path)
        (flushOps path entry.sstable entry.wals))

/-- What remains in memory once all calls of the flush are made. -/
def endFlush (db : DBImpl) (entry : FlushEntry) : Option TablePath → DBImpl
  | none => db.eraseImmutable entry.memtable
  | some path => { db with version := db.version.addLevelFile 0 path }.eraseImmutable entry.memtable

end DBImpl

namespace System

def init : System := ⟨.down ⟨[],[],⟨none,none,none⟩⟩,[]⟩

def step (options : Options) (s : System) : Step → Option System
  | .start =>
    match s.proc with
    | .down d => some { s with proc := .recovering d d (recoverOps options d) }
    | _ => none
  | .recoverCall =>
    match s.proc with
    | .recovering start d (op::rest) => some { s with proc := .recovering start (d.apply op) rest }
    | _ => none
  | .opened =>
    match s.proc with
    | .recovering start d [] =>
      some { s with proc := .up { DBImpl.recover options start with disk := d } .idle .idle }
    | _ => none
  | .beginWrite group =>
    match s.proc with
    | .up db .idle f =>
      if group.isEmpty then none
      else some { s with proc := .up db (.writing group (appendOps db.currentWal group)) f }
    | _ => none
  | .writerCall =>
    match s.proc with
    | .up db (.writing group (op::rest)) f =>
      some { s with proc := .up { db with disk := db.disk.apply op } (.writing group rest) f }
    | _ => none
  | .apply full =>
    match s.proc with
    | .up db (.writing group []) f =>
      let db := db.applyWrite group
      some { s with proc := .up (if full then db.freeze else db) (.applied group) f }
    | _ => none
  | .acknowledge =>
    match s.proc with
    | .up db (.applied group) f =>
      some ⟨.up db .idle f,s.history++[⟨group,true⟩]⟩
    | _ => none
  | .beginFlush =>
    match s.proc with
    | .up db w .idle =>
      match db.flushQueue with
      | [] => none
      | entry::queue =>
        some { s with proc := .up (db.takeFlush queue entry).1 w (db.takeFlush queue entry).2 }
    | _ => none
  | .flusherCall =>
    match s.proc with
    | .up db w (.flushing entry path (op::rest)) =>
      some { s with proc := .up { db with disk := db.disk.apply op } w (.flushing entry path rest) }
    | _ => none
  | .endFlush =>
    match s.proc with
    | .up db w (.flushing entry path []) =>
      some { s with proc := .up (db.endFlush entry path) w .idle }
    | _ => none
  | .crash => some ⟨.down s.proc.disk,s.history++s.proc.orphan⟩

abbrev run (options : Options) (s : System) (steps : List Step) : Option System :=
  Runs.run (step options) s steps

section Uninterrupted
variable (options : Options) (history : List Logged)

/-- A state that differs from call to call in the files and in the calls still to come only. -/
lemma run_calls {S : Disk → List FsOp → System} {e : Step}
    (h : ∀ d op ops, step options (S d (op::ops)) e = some (S (d.apply op) ops)) (d : Disk) (ops : List FsOp)
    (steps : List Step) :
    run options (S d ops) (replicate ops.length e ++ steps) = run options (S (d.exec ops) []) steps := by
  induction ops generalizing d with
  | nil => rfl
  | cons op ops ih =>
    rw [length_cons,replicate_succ,cons_append,run,Runs.run,h]
    exact ih (d.apply op)

variable (db : DBImpl)

lemma run_write (f : Flusher) {group : WriteGroup} (h : group.isEmpty = false) :
    run options ⟨.up db .idle f,history⟩
        (.beginWrite group::(replicate (appendOps db.currentWal group).length .writerCall ++
          [.apply (db.writeGroup group).shouldFlush,.acknowledge])) =
      some ⟨.up (db.doWriteGroup group) .idle f,history++[⟨group,true⟩]⟩ := by
  simp only [run,Runs.run,step,h,Bool.false_eq_true,if_false,Option.bind_some]
  refine (run_calls options (S := fun d ops => ⟨.up { db with disk := d } (.writing group ops) f,history⟩)
    (fun _ _ _ => rfl) db.disk _ _).trans ?_
  rw [DBImpl.doWriteGroup,DBImpl.maybeFlush,DBImpl.writeGroup,h]
  rfl

lemma run_flush (w : Writer) {entry : FlushEntry} {queue : List FlushEntry}
    (h : db.flushQueue = entry::queue) : ∃ n,
    run options ⟨.up db w .idle,history⟩ (.beginFlush::(replicate n .flusherCall ++ [.endFlush])) =
      some ⟨.up db.flushNext w .idle,history⟩ := by
  simp only [run,Runs.run,step,Option.bind_some,DBImpl.flushNext,h,DBImpl.flushOne,DBImpl.takeFlush]
  have hcalls (db : DBImpl) (path : Option TablePath) := run_calls options (e := .flusherCall)
    (S := fun d ops => ⟨.up { db with disk := d } w (.flushing entry path ops),history⟩) (fun _ _ _ => rfl) db.disk
  split
  · exact ⟨_,hcalls { db with flushQueue := queue } none (unlinkOps entry.wals) [.endFlush]⟩
  · exact ⟨_,hcalls { db with flushQueue := queue, version := db.version.advance } _ (flushOps _ _ entry.wals)
      [.endFlush]⟩

/-- A call that ends before the next one begins. -/
inductive Whole
  | write (group : WriteGroup) (h : group.isEmpty = false)
  | flush

def Whole.perform (db : DBImpl) : Whole → DBImpl
  | write group _ => db.doWriteGroup group
  | flush => db.flushNext

def Whole.acknowledged : Whole → List Logged
  | write group _ => [⟨group,true⟩]
  | flush => []

/-- Undisturbed, `open` and the calls after it do what they do as a whole, and each write is acknowledged once. -/
theorem run_whole (d : Disk) (calls : List Whole) : ∃ steps, run options ⟨.down d,history⟩ steps =
    some ⟨.up (calls.foldl Whole.perform (.recover options d)) .idle .idle,
      history ++ calls.flatMap Whole.acknowledged⟩ := by
  induction calls using reverseRecOn with
  | nil =>
    rw [flatMap_nil,append_nil]
    exact ⟨.start::(replicate (recoverOps options d).length Step.recoverCall ++ [Step.opened]),
      run_calls options (S := fun d' ops => ⟨.recovering d d' ops,history⟩) (fun _ _ _ => rfl) d _ _⟩
  | append_singleton calls call ih =>
    obtain ⟨steps,hsteps⟩ := ih
    have hthen {more : List Step} {s : System} (h : run options _ more = some s) :
        run options ⟨.down d,history⟩ (steps++more) = some s :=
      (Runs.run_append steps more).trans (Option.bind_eq_some_iff.mpr ⟨_,hsteps,h⟩)
    rw [foldl_concat,flatMap_append,flatMap_singleton,← append_assoc]
    cases call with
    | write group h => exact ⟨_,hthen (run_write options _ _ .idle h)⟩
    | flush =>
      rw [Whole.acknowledged,append_nil,Whole.perform]
      cases hqueue : (calls.foldl Whole.perform (.recover options d)).flushQueue with
      | nil => exact ⟨steps,by rw [DBImpl.flushNext_nil hqueue,hsteps]⟩
      | cons entry queue => exact ⟨_,hthen (run_flush options _ _ .idle hqueue).choose_spec⟩

end Uninterrupted

end System
end TitanKV.Minikv
