import TitanKV.Minikv.Disk
import TitanKV.Minikv.WalReplay

/-! The database object: the active MemTable, the frozen ones waiting to be flushed, the
live SSTables and the files under `db_path_`. System calls succeed here; options that only
tune the file layout are left out. -/
namespace TitanKV.Minikv
open Disk

/-- A `shared_ptr<MemTable>`; the identifier stands for the address that `std::find` compares. -/
structure MemTableRef where
  id : ℕ
  table : MemTable

structure FlushEntry where
  memtable : MemTableRef
  wals : List ℕ

def FlushEntry.sstable (entry : FlushEntry) : SSTable :=
  ⟨entry.memtable.table.chain,entry.memtable.table.ascending⟩

structure Options where
  memtableSize : ℕ
  maxLevel : ℕ

structure DBImpl where
  options : Options
  memtable : MemTableRef
  immutableList : List MemTableRef
  flushQueue : List FlushEntry
  seq : ℕ
  currentWal : ℕ
  obsoleteWals : List ℕ
  version : Version
  nextId : ℕ
  disk : Disk

/-- The operations of a batch get the numbers after `base`. -/
def applyBatch (m : MemTable) (base : ℕ) : WriteBatch → MemTable
  | [] => m
  | op::ops => applyBatch (m.put op.key op.value (base+1) (op.type = .delete)) (base+1) ops

/-- Each batch of a group starts where `fetch_add` left the counter for it. -/
def applyGroup (m : MemTable) (base : ℕ) : WriteGroup → MemTable
  | [] => m
  | batch::group => applyGroup (applyBatch m base batch) (base+batch.length) group

/-- The calls of `WAL::append` for a group; an empty payload is not written. -/
def appendOps (wal : ℕ) (group : WriteGroup) : List FsOp :=
  .wal (.append wal (walHeader (encodeGroup group)))::
    if (walPayload (encodeGroup group)).isEmpty then []
    else [.wal (.append wal (walPayload (encodeGroup group)))]

@[simp] theorem entriesOf_appendOps (d : Disk) (wal : ℕ) (group : WriteGroup) :
    (d.exec (appendOps wal group)).entriesOf = d.entriesOf := by
  rw [appendOps]
  split <;> rfl

def unlinkOps (wals : List ℕ) : List FsOp := wals.map fun n => .wal (.unlink n)

lemma Disk.exec_unlinkOps (d : Disk) (wals : List ℕ) :
    d.exec (unlinkOps wals) = { d with wals := wals.foldl Directory.unlink d.wals } := by
  induction wals generalizing d with
  | nil => rfl
  | cons n wals ih => exact ih _

/-- The calls of `flushOne` for a MemTable with entries. -/
def flushOps (path : TablePath) (t : SSTable) (wals : List ℕ) : List FsOp :=
  .table (.create path)::.table (.complete path t)::
    (recordOps (.add path.level path path.number) ++ unlinkOps wals)

namespace DBImpl

def rotateWal (db : DBImpl) : DBImpl :=
  { db with
    version := db.version.advance
    currentWal := db.version.nextFileNumber
    obsoleteWals := db.obsoleteWals++[db.currentWal]
    disk := db.disk.apply (.wal (.create db.version.nextFileNumber)) }

/-- `maybeFlush` past its guard: freeze the active MemTable and hand it to the flush thread. -/
def freeze (db : DBImpl) : DBImpl :=
  let r := db.rotateWal
  { r with
    memtable := ⟨db.nextId,.empty⟩
    nextId := db.nextId+1
    obsoleteWals := []
    immutableList := db.immutableList++[db.memtable]
    flushQueue := db.flushQueue ++ [⟨db.memtable,r.obsoleteWals⟩] }

def shouldFlush (db : DBImpl) : Bool :=
  db.options.memtableSize≤db.memtable.table.approximateMemoryUsage

def maybeFlush (db : DBImpl) : DBImpl := if db.shouldFlush then db.freeze else db

/-- `doWriteGroup` up to its call of `maybeFlush`. -/
def writeGroup (db : DBImpl) (group : WriteGroup) : DBImpl :=
  if group.isEmpty then db
  else
    { db with
      seq := db.seq+group.flatten.length
      memtable := ⟨db.memtable.id,applyGroup db.memtable.table db.seq group⟩
      disk := db.disk.exec (appendOps db.currentWal group) }

def doWriteGroup (db : DBImpl) (group : WriteGroup) : DBImpl :=
  if group.isEmpty then db else (db.writeGroup group).maybeFlush

/-- Active MemTable, then the frozen ones from the newest, then level by level the files in
the order `getLevelFiles` lists them. -/
def get (db : DBImpl) (key : Bytes) : Except Status Bytes :=
  match db.memtable.table.get key db.seq with
  | some v => .ok v
  | none =>
    match db.immutableList.reverse.findSome? fun m => m.table.get key db.seq with
    | some v => .ok v
    | none =>
      match (List.range (db.options.maxLevel+1)).findSome? fun level =>
          (db.version.getLevelFiles level).findSome? fun path =>
            (db.disk.reader path).bind fun reader => reader.get key with
      | some v => .ok v
      | none => .error .NotFound

def eraseImmutable (db : DBImpl) (m : MemTableRef) : DBImpl :=
  { db with immutableList := db.immutableList.eraseP fun x => x.id = m.id }

def flushOne (db : DBImpl) (flushing : MemTableRef) (wals : List ℕ) : DBImpl :=
  if flushing.table.isEmpty then
    let db := { db with disk := db.disk.exec (unlinkOps wals) }
    db.eraseImmutable flushing
  else
    let path : TablePath := ⟨0,db.version.nextFileNumber⟩
    let db := { db with
      version := db.version.advance.addLevelFile 0 path
      disk := db.disk.exec (flushOps path ⟨flushing.table.chain,flushing.table.ascending⟩ wals) }
    db.eraseImmutable flushing

/-- One round of `flushLoop`: the oldest entry of the queue, or nothing to do. -/
def flushNext (db : DBImpl) : DBImpl :=
  match db.flushQueue with
  | [] => db
  | entry::queue => { db with flushQueue := queue }.flushOne entry.memtable entry.wals

/-- What flushing the front of the queue changes: the MemTable leaves the list of frozen
ones, and its entries become the last file of level 0 unless there are none. -/
structure Flushed (db : DBImpl) (entry : FlushEntry) (queue : List FlushEntry) (db' : DBImpl) :
    Prop where
  options : db'.options = db.options
  memtable : db'.memtable = db.memtable
  immutableList : db'.immutableList = db.immutableList.eraseP fun x => x.id = entry.memtable.id
  flushQueue : db'.flushQueue = queue
  seq : db'.seq = db.seq
  next : db.version.nextFileNumber≤db'.version.nextFileNumber
  files : ∀ i, filesAt db'.version.levels i =
    if 0 = i ∧ entry.memtable.table.chain ≠ [] then
      filesAt db.version.levels i ++ [⟨⟨0,db.version.nextFileNumber⟩,db.version.nextFileNumber⟩]
    else filesAt db.version.levels i
  entries : ∀ path, db'.disk.entriesOf path =
    if path = ⟨0,db.version.nextFileNumber⟩ ∧ entry.memtable.table.chain ≠ [] then
      entry.memtable.table.chain
    else db.disk.entriesOf path
  taken : entry.memtable.table.chain ≠ [] → db.version.nextFileNumber<db'.version.nextFileNumber

variable {db : DBImpl}

theorem flushNext_nil (h : db.flushQueue = []) : db.flushNext = db := by
  simp [flushNext,h]

lemma entriesOf_unlinkWals (d : Disk) (wals : List ℕ) (path : TablePath) :
    (d.exec (unlinkOps wals)).entriesOf path = d.entriesOf path := by
  rw [exec_unlinkOps]
  rfl

/-- A table is built, whatever happens to the MANIFEST. -/
lemma entriesOf_built (d : Disk) (path : TablePath) (t : SSTable) (m : ManifestFiles) (p : TablePath) :
    entriesOf { d with tables := (d.tables.set path none).set path (some t), manifest := m } p =
      if p = path then t.entries else d.entriesOf p := by
  rw [entriesOf,entriesOf,reader,reader,Directory.get_set,Directory.get_set]
  by_cases hp : p = path
  · rw [if_pos hp,if_pos hp]
    rfl
  · rw [if_neg hp,if_neg hp,if_neg hp]

lemma entriesOf_flushOps (d : Disk) (path : TablePath) (t : SSTable) (wals : List ℕ) (p : TablePath) :
    (d.exec (flushOps path t wals)).entriesOf p = if p = path then t.entries else d.entriesOf p := by
  have hsplit : flushOps path t wals = (.table (.create path)::.table (.complete path t)::
      recordOps (.add path.level path path.number)) ++ unlinkOps wals := rfl
  rw [hsplit,exec_append,entriesOf_unlinkWals]
  exact entriesOf_built d path t _ p

variable {queue : List FlushEntry}

theorem flushNext_cons {entry : FlushEntry}
    (h : db.flushQueue = entry::queue) : Flushed db entry queue db.flushNext := by
  simp only [flushNext,h]
  rw [flushOne]
  split
  · rename_i hempty
    have hchain : entry.memtable.table.chain = [] := List.isEmpty_iff.mp hempty
    refine ⟨rfl,rfl,rfl,rfl,rfl,le_rfl,?_,?_,fun hne => (hne hchain).elim⟩
    · intro i
      rw [if_neg fun hz => hz.2 hchain]
      rfl
    · intro path
      rw [if_neg fun hz => hz.2 hchain]
      exact entriesOf_unlinkWals db.disk entry.wals path
  · rename_i hempty
    have hchain : entry.memtable.table.chain ≠ [] := fun hnil => hempty (List.isEmpty_iff.mpr hnil)
    refine ⟨rfl,rfl,rfl,rfl,rfl,(Nat.le_succ _).trans (Nat.le_max_left _ _),?_,?_,
      fun _ => Nat.lt_of_lt_of_le (Nat.lt_succ_self _) (Nat.le_max_left _ _)⟩
    · intro i
      change filesAt (pushFile db.version.levels 0 _) i = _
      simp only [filesAt_pushFile,hchain,ne_eq,not_false_eq_true,and_true]
    · intro path
      have hops := entriesOf_flushOps db.disk ⟨0,db.version.nextFileNumber⟩
        ⟨entry.memtable.table.chain,entry.memtable.table.ascending⟩ entry.wals path
      simp only [ne_eq,hchain,not_false_eq_true,and_true]
      exact hops

/-- The MemTable of the entry is the first of the frozen ones, and the only one that leaves them. -/
lemma immutableList_flushNext {entry : FlushEntry}
    (h : db.flushQueue.map FlushEntry.memtable = db.immutableList) (hq : db.flushQueue = entry::queue) :
    db.immutableList = entry.memtable::queue.map FlushEntry.memtable ∧
      db.flushNext.immutableList = queue.map FlushEntry.memtable := by
  have himm : db.immutableList = entry.memtable::queue.map FlushEntry.memtable := by
    rw [← h,hq,List.map_cons]
  refine ⟨himm,?_⟩
  rw [(flushNext_cons hq).immutableList,himm]
  simp

end DBImpl
end TitanKV.Minikv
