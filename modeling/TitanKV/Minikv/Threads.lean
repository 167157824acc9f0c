import TitanKV.Library.Runs
import TitanKV.Minikv.Compaction

/-! The flush thread and the compaction thread at work while others write. A step is one system call,
or what a thread does while it holds a lock; between two steps of a thread the others may do anything. -/
namespace TitanKV.Minikv
open Option

/-- Where `flushOne` is. An empty MemTable is dropped without a table. -/
inductive FlushThread
  | waiting
  | creating (entry : FlushEntry) (path : TablePath)
  | building (entry : FlushEntry) (path : TablePath)
  | listing (entry : FlushEntry) (path : TablePath)
  | erasing (entry : FlushEntry)
  | unlinking (wals : List ℕ)
  | dropping (entry : FlushEntry) (wals : List ℕ)

/-- Where `mergeLevelFiles` is; `all` are the entries read so far. -/
inductive CompactionThread
  | waiting
  | reading (level : ℕ) (sources rest : List TablePath) (all : List Entry)
  | creating (level : ℕ) (sources : List TablePath) (newFile : TablePath) (merged : SSTable)
  | building (level : ℕ) (sources : List TablePath) (newFile : TablePath) (merged : SSTable)
  | listing (level : ℕ) (sources : List TablePath) (newFile : TablePath) (merged : SSTable)
  | retracting (level : ℕ) (sources : List TablePath)
  | unlinking (paths : List TablePath)

/-- The system calls of the next step, in order. -/
def FlushThread.calls : FlushThread → List FsOp
  | creating _ path => [.table (.create path)]
  | building entry path => [.table (.complete path entry.sstable)]
  | listing _ path => recordOps (.add path.level path path.number)
  | unlinking (n::_) | dropping _ (n::_) => [.wal (.unlink n)]
  | _ => []

/-- A table that would be empty is unlinked instead of listed. -/
def CompactionThread.calls (levels : Levels) : CompactionThread → List FsOp
  | creating _ _ newFile _ => [.table (.create newFile)]
  | building _ _ newFile merged => [.table (.complete newFile merged)]
  | listing _ _ newFile merged =>
    if merged.entries.isEmpty then [.table (.unlink newFile)]
    else recordOps (.add newFile.level newFile newFile.number)
  | retracting level sources => (removeRecords levels level sources).flatMap recordOps
  | unlinking (path::_) => [.table (.unlink path)]
  | _ => []

def mergedOf (all : List Entry) : SSTable :=
  ⟨keepNewestEntries [] (all.insertionSort Entry.Le),
    ascending_keepNewest [] (List.pairwise_insertionSort Entry.Le all)⟩

structure Threads where
  db : DBImpl
  flusher : FlushThread
  compactor : CompactionThread

inductive ThreadEvent
  | write (group : WriteGroup)
  | flush
  | merge (level : ℕ)
  | compact

def DBImpl.calls (db : DBImpl) (ops : List FsOp) : DBImpl := { db with disk := db.disk.exec ops }

/-- The guards of `compactL0`, `compactLevel` and `mergeLevelFiles`. -/
def DBImpl.mergeable (db : DBImpl) (level : ℕ) : Bool :=
  level < db.options.maxLevel && !(db.version.getLevelFiles level).isEmpty &&
    (level = 0 || 2 ≤ (db.version.getLevelFiles level).length)

namespace Threads

def opened (options : Options) (d : Disk) : Threads := ⟨DBImpl.recover options d,.waiting,.waiting⟩

def flushStep (s : Threads) : Option Threads :=
  let db := s.db.calls s.flusher.calls
  match s.flusher with
  | .waiting =>
    match db.flushQueue with
    | [] => none
    | entry::queue =>
      if entry.memtable.table.isEmpty then
        some { s with db := { db with flushQueue := queue }, flusher := .dropping entry entry.wals }
      else
        some { s with
          db := { db with flushQueue := queue, version := db.version.advance }
          flusher := .creating entry ⟨0,db.version.nextFileNumber⟩ }
  | .creating entry path => some { s with db := db, flusher := .building entry path }
  | .building entry path => some { s with db := db, flusher := .listing entry path }
  | .listing entry path =>
    some { s with db := { db with version := db.version.addLevelFile path.level path }, flusher := .erasing entry }
  | .erasing entry => some { s with db := db.eraseImmutable entry.memtable, flusher := .unlinking entry.wals }
  | .unlinking [] => some { s with flusher := .waiting }
  | .unlinking (_::wals) => some { s with db := db, flusher := .unlinking wals }
  | .dropping entry [] => some { s with db := db.eraseImmutable entry.memtable, flusher := .waiting }
  | .dropping entry (_::wals) => some { s with db := db, flusher := .dropping entry wals }

def compactStep (s : Threads) : Option Threads :=
  let db := s.db.calls (s.compactor.calls s.db.version.levels)
  match s.compactor with
  | .waiting => none
  | .reading level sources (path::rest) all =>
    some { s with compactor := .reading level sources rest (all ++ db.disk.entriesOf path) }
  | .reading level sources [] all =>
    some { s with
      db := { db with version := db.version.advance }
      compactor := .creating level sources ⟨level+1,db.version.nextFileNumber⟩ (mergedOf all) }
  | .creating level sources newFile merged =>
      some { s with db := db, compactor := .building level sources newFile merged }
  | .building level sources newFile merged =>
      some { s with db := db, compactor := .listing level sources newFile merged }
  | .listing level sources newFile merged =>
    if merged.entries.isEmpty then some { s with db := db, compactor := .retracting level sources }
    else
      some { s with
        db := { db with version := db.version.addLevelFile newFile.level newFile }
        compactor := .retracting level sources }
  | .retracting level sources =>
    some { s with
      db := { db with version := db.version.removeLevelFiles level sources }
      compactor := .unlinking sources }
  | .unlinking [] => some { s with compactor := .waiting }
  | .unlinking (_::paths) => some { s with db := db, compactor := .unlinking paths }

def step (s : Threads) : ThreadEvent → Option Threads
  | .write group => some { s with db := s.db.doWriteGroup group }
  | .flush => s.flushStep
  | .merge level =>
    match s.compactor with
    | .waiting =>
      let files := s.db.version.getLevelFiles level
      if s.db.mergeable level then some { s with compactor := .reading level files files [] } else none
    | _ => none
  | .compact => s.compactStep

/-- What a step of the flush thread can do. -/
inductive FlushStep (db : DBImpl) (c : CompactionThread) : FlushThread → Threads → Prop
  | skip {entry : FlushEntry} {queue : List FlushEntry} (hqueue : db.flushQueue = entry::queue)
      (hempty : entry.memtable.table.isEmpty = true) :
      FlushStep db c .waiting ⟨{ db with flushQueue := queue },.dropping entry entry.wals,c⟩
  | take {entry : FlushEntry} {queue : List FlushEntry} (hqueue : db.flushQueue = entry::queue)
      (hempty : entry.memtable.table.isEmpty = false) :
      FlushStep db c .waiting ⟨{ db with flushQueue := queue, version := db.version.advance },
        .creating entry ⟨0,db.version.nextFileNumber⟩,c⟩
  | create entry path :
      FlushStep db c (.creating entry path) ⟨db.calls [.table (.create path)],.building entry path,c⟩
  | build entry path :
      FlushStep db c (.building entry path) ⟨db.calls [.table (.complete path entry.sstable)],.listing entry path,c⟩
  | list entry path : FlushStep db c (.listing entry path)
      ⟨{ db.calls (recordOps (.add path.level path path.number)) with
          version := db.version.addLevelFile path.level path },.erasing entry,c⟩
  | erase entry : FlushStep db c (.erasing entry) ⟨db.eraseImmutable entry.memtable,.unlinking entry.wals,c⟩
  | unlink n wals : FlushStep db c (.unlinking (n::wals)) ⟨db.calls [.wal (.unlink n)],.unlinking wals,c⟩
  | done : FlushStep db c (.unlinking []) ⟨db,.waiting,c⟩
  | drop entry n wals :
      FlushStep db c (.dropping entry (n::wals)) ⟨db.calls [.wal (.unlink n)],.dropping entry wals,c⟩
  | dropped entry : FlushStep db c (.dropping entry []) ⟨db.eraseImmutable entry.memtable,.waiting,c⟩

/-- What a step of the compaction thread can do. -/
inductive CompactStep (db : DBImpl) (f : FlushThread) : CompactionThread → Threads → Prop
  | read level sources path rest all : CompactStep db f (.reading level sources (path::rest) all)
      ⟨db,f,.reading level sources rest (all ++ db.disk.entriesOf path)⟩
  | number level sources all :
      CompactStep db f (.reading level sources [] all) ⟨{ db with version := db.version.advance },f,
      .creating level sources ⟨level+1,db.version.nextFileNumber⟩ (mergedOf all)⟩
  | create level sources newFile merged : CompactStep db f (.creating level sources newFile merged)
      ⟨db.calls [.table (.create newFile)],f,.building level sources newFile merged⟩
  | build level sources newFile merged : CompactStep db f (.building level sources newFile merged)
      ⟨db.calls [.table (.complete newFile merged)],f,.listing level sources newFile merged⟩
  | discard level sources newFile merged (hempty : merged.entries.isEmpty = true) :
      CompactStep db f (.listing level sources newFile merged) ⟨db.calls [.table (.unlink newFile)],f,
        .retracting level sources⟩
  | list level sources newFile merged (hkept : ¬ merged.entries.isEmpty = true) :
      CompactStep db f (.listing level sources newFile merged)
        ⟨{ db.calls (recordOps (.add newFile.level newFile newFile.number)) with
          version := db.version.addLevelFile newFile.level newFile },f,.retracting level sources⟩
  | retract level sources : CompactStep db f (.retracting level sources)
      ⟨{ db.calls ((removeRecords db.version.levels level sources).flatMap recordOps) with
        version := db.version.removeLevelFiles level sources },f,.unlinking sources⟩
  | unlink path paths :
      CompactStep db f (.unlinking (path::paths)) ⟨db.calls [.table (.unlink path)],f,.unlinking paths⟩
  | done : CompactStep db f (.unlinking []) ⟨db,f,.waiting⟩

section Cases
variable {db : DBImpl} {f : FlushThread} {c : CompactionThread} {s' : Threads}

lemma flushStep_cases (hstep : flushStep ⟨db,f,c⟩ = some s') : FlushStep db c f s' := by
  cases f with
  | waiting =>
    cases hqueue : db.flushQueue with
    | nil => simp [flushStep,DBImpl.calls,hqueue] at hstep
    | cons entry queue =>
      cases hempty : entry.memtable.table.isEmpty with
      | true =>
        simp only [flushStep,DBImpl.calls,hqueue,if_pos hempty,some.injEq] at hstep
        exact hstep ▸ .skip hqueue hempty
      | false =>
        simp only [flushStep,DBImpl.calls,hqueue,hempty,Bool.false_eq_true,if_false,some.injEq] at hstep
        exact hstep ▸ .take hqueue hempty
  | creating entry path => exact some.inj hstep ▸ .create entry path
  | building entry path => exact some.inj hstep ▸ .build entry path
  | listing entry path => exact some.inj hstep ▸ .list entry path
  | erasing entry => exact some.inj hstep ▸ .erase entry
  | unlinking wals =>
    cases wals with
    | nil => exact some.inj hstep ▸ .done
    | cons n wals => exact some.inj hstep ▸ .unlink n wals
  | dropping entry wals =>
    cases wals with
    | nil => exact some.inj hstep ▸ .dropped entry
    | cons n wals => exact some.inj hstep ▸ .drop entry n wals

lemma compactStep_cases (hstep : compactStep ⟨db,f,c⟩ = some s') : CompactStep db f c s' := by
  cases c with
  | waiting => cases hstep
  | reading level sources rest all =>
    cases rest with
    | nil => exact some.inj hstep ▸ .number level sources all
    | cons path rest => exact some.inj hstep ▸ .read level sources path rest all
  | creating level sources newFile merged => exact some.inj hstep ▸ .create level sources newFile merged
  | building level sources newFile merged => exact some.inj hstep ▸ .build level sources newFile merged
  | listing level sources newFile merged =>
    by_cases hempty : merged.entries.isEmpty = true
    · simp only [compactStep,CompactionThread.calls,if_pos hempty,some.injEq] at hstep
      exact hstep ▸ .discard level sources newFile merged hempty
    · simp only [compactStep,CompactionThread.calls,if_neg hempty,some.injEq] at hstep
      exact hstep ▸ .list level sources newFile merged hempty
  | retracting level sources => exact some.inj hstep ▸ .retract level sources
  | unlinking paths =>
    cases paths with
    | nil => exact some.inj hstep ▸ .done
    | cons path paths => exact some.inj hstep ▸ .unlink path paths

end Cases

/-- A merge begins in memory: it takes the files of its level. -/
lemma merge_eq {s s' : Threads} {level : ℕ} (hstep : s.step (.merge level) = some s') :
    s.compactor = .waiting ∧ s.db.mergeable level = true ∧ s' =
      { s with
        compactor := .reading level (s.db.version.getLevelFiles level) (s.db.version.getLevelFiles level) [] } := by
  cases hc : s.compactor with
  | waiting =>
    rw [step,hc] at hstep
    dsimp only at hstep
    split at hstep
    · rename_i hmergeable
      exact ⟨rfl,hmergeable,(some.inj hstep).symm⟩
    · cases hstep
  | _ =>
    rw [step,hc] at hstep
    cases hstep

end Threads
end TitanKV.Minikv
