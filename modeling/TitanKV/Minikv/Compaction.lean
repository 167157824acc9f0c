import TitanKV.Minikv.FirstVersions
import TitanKV.Minikv.Recover

/-! Merging all files of a level into one file of the next level: read the sources, sort
them, keep the newest version of each user key and drop the tombstones. -/
namespace TitanKV.Minikv
open List Disk Directory

namespace Entry

/-- The order that `std::sort` is called with, as a relation that also holds of equal keys. -/
def Le (a b : Entry) : Prop := (a.key.compare b.key).isLE = true

instance : DecidableRel Le := fun _ _ => inferInstanceAs (Decidable (_ = true))

instance : IsTrans Entry Le := ⟨fun _ _ _ hab hbc => Std.TransCmp.isLE_trans hab hbc⟩

instance : Std.Total Le where
  total a b := by
    by_cases hab : a.Le b
    · exact .inl hab
    · refine .inr ?_
      have hgt : a.key.compare b.key = .gt := by
        cases h : a.key.compare b.key <;> simp [Le,h] at hab ⊢
      simp [Le,Std.OrientedCmp.lt_of_gt hgt]

lemma userKey_le_of_le {a b : Entry} (h : a.Le b) : compare a.key.userKey b.key.userKey ≠ .gt := by
  intro hg
  simp [Le,InternalKey.compare,hg] at h

lemma not_le_of_lt {a b : Entry} (h : a.key.Lt b.key) : ¬ b.Le a := by
  intro hle
  simp [Le,Std.OrientedCmp.gt_of_lt h] at hle

end Entry

abbrev Ordered (es : List Entry) : Prop := es.Pairwise Entry.Le

abbrev keepNewestEntries : Bytes → List Entry → List Entry :=
  keepNewest (fun e => e.key.userKey) (fun e => e.key.isDeletion)

lemma Ordered.keysAscend {es : List Entry} (h : Ordered es) : KeysAscend (fun e => e.key.userKey) es :=
  h.imp Entry.userKey_le_of_le

theorem ascending_keepNewest (last : Bytes) {es : List Entry} (h : Ordered es) :
    Ascending (keepNewestEntries last es) := by
  refine (pairwise_keepNewest last h.keysAscend).imp ?_
  intro a b (hlt : compare a.key.userKey b.key.userKey = .lt)
  exact Ordering.then_eq_lt.mpr (.inl hlt)

/-- Every entry read from the sources; a source that cannot be opened is skipped. -/
def sourceEntries (d : Disk) (srcFiles : List TablePath) : List Entry :=
  srcFiles.flatMap d.entriesOf

def sortedEntries (d : Disk) (srcFiles : List TablePath) : List Entry :=
  (sourceEntries d srcFiles).insertionSort Entry.Le

lemma ordered_sortedEntries (d : Disk) (srcFiles : List TablePath) :
    Ordered (sortedEntries d srcFiles) := pairwise_insertionSort Entry.Le _

def mergedTable (d : Disk) (srcFiles : List TablePath) : SSTable :=
  ⟨keepNewestEntries [] (sortedEntries d srcFiles),ascending_keepNewest [] (ordered_sortedEntries d srcFiles)⟩

/-- Of each user key but the empty one the merge keeps the version that sorts first, unless it is a
tombstone. -/
theorem newest_merged (d : Disk) (srcFiles : List TablePath) (k : Bytes) :
    newest (mergedTable d srcFiles).entries k =
      if k = [] then none else (newest (sortedEntries d srcFiles) k).filter fun e => !e.key.isDeletion := by
  exact find?_keepNewest (ordered_sortedEntries d srcFiles).keysAscend (fun e _ => compare_nil_ne_gt _) k

/-- The calls of a merge whose output is empty: the new file is removed again. -/
def dropOps (newFile : TablePath) (merged : SSTable) (removals : List ManifestRecord)
    (srcFiles : List TablePath) : List FsOp :=
  [.table (.create newFile),.table (.complete newFile merged),.table (.unlink newFile)] ++
    removals.flatMap recordOps ++ srcFiles.map fun path => .table (.unlink path)

/-- The calls of a merge that keeps something. -/
def mergeOps (newFile : TablePath) (merged : SSTable) (removals : List ManifestRecord)
    (srcFiles : List TablePath) : List FsOp :=
  [.table (.create newFile),.table (.complete newFile merged)] ++
    recordOps (.add newFile.level newFile newFile.number) ++
    removals.flatMap recordOps ++ srcFiles.map fun path => .table (.unlink path)

namespace DBImpl

def mergeLevelFiles (db : DBImpl) (srcLevel : ℕ) (srcFiles : List TablePath) : Status × DBImpl :=
  if srcFiles.isEmpty then (.Ok,db)
  else if db.options.maxLevel<srcLevel+1 then (.Ok,db)
  else
    let newFile : TablePath := ⟨srcLevel+1,db.version.nextFileNumber⟩
    let merged := mergedTable db.disk srcFiles
    let removals := removeRecords db.version.levels srcLevel srcFiles
    if merged.entries.isEmpty then
      (.Ok,{ db with
        version := db.version.advance.removeLevelFiles srcLevel srcFiles
        disk := db.disk.exec (dropOps newFile merged removals srcFiles) })
    else
      (.Ok,{ db with
        version := (db.version.advance.addLevelFile (srcLevel+1) newFile).removeLevelFiles srcLevel srcFiles
        disk := db.disk.exec (mergeOps newFile merged removals srcFiles) })

def compactL0 (db : DBImpl) : Status × DBImpl :=
  if (db.version.getLevelFiles 0).isEmpty then (.Ok,db)
  else db.mergeLevelFiles 0 (db.version.getLevelFiles 0)

def compactLevel (db : DBImpl) (level : ℕ) : Status × DBImpl :=
  if level<1 ∨ db.options.maxLevel≤level then (.Ok,db)
  else if (db.version.getLevelFiles level).length<2 then (.Ok,db)
  else db.mergeLevelFiles level (db.version.getLevelFiles level)

/-- `mergeLevelFiles` on all files of a level, which is how both callers call it. -/
def mergeLevel (db : DBImpl) (srcLevel : ℕ) : Status × DBImpl :=
  db.mergeLevelFiles srcLevel (db.version.getLevelFiles srcLevel)

/-- What a merge that does something changes: the source level is emptied of the sources,
the new file is listed on the next level unless nothing was kept, and the sources are gone. -/
structure Merged (db : DBImpl) (srcLevel : ℕ) (srcFiles : List TablePath) (db' : DBImpl) : Prop where
  options : db'.options = db.options
  memtable : db'.memtable = db.memtable
  immutableList : db'.immutableList = db.immutableList
  flushQueue : db'.flushQueue = db.flushQueue
  seq : db'.seq = db.seq
  next : db.version.nextFileNumber<db'.version.nextFileNumber
  files : ∀ i, filesAt db'.version.levels i =
    if srcLevel = i then (filesAt db.version.levels i).filter fun m => m.path ∉ srcFiles
    else if srcLevel+1 = i ∧ (mergedTable db.disk srcFiles).entries ≠ [] then
      filesAt db.version.levels i ++
        [⟨⟨srcLevel+1,db.version.nextFileNumber⟩,db.version.nextFileNumber⟩]
    else filesAt db.version.levels i
  entries : ∀ path, db'.disk.entriesOf path =
    if path ∈ srcFiles then []
    else if path = ⟨srcLevel+1,db.version.nextFileNumber⟩ then (mergedTable db.disk srcFiles).entries
    else db.disk.entriesOf path

variable (d : Disk)

lemma entriesOf_records (records : List ManifestRecord) (path : TablePath) :
    (d.exec (records.flatMap recordOps)).entriesOf path = d.entriesOf path := by
  rw [exec_recordOps]
  rfl

lemma entriesOf_unlinkTables (paths : List TablePath) (path : TablePath) :
    (d.exec (paths.map fun path => .table (.unlink path))).entriesOf path =
      if path ∈ paths then [] else d.entriesOf path := by
  induction paths generalizing d with
  | nil => simp
  | cons p paths ih =>
    rw [map_cons,exec,CrashPoints.exec_cons,ih]
    change (if path ∈ paths then [] else
      entriesOf { d with tables := d.tables.unlink p } path) = _
    by_cases hp : path = p
    · subst hp
      simp [entriesOf,reader,get_unlink]
    · simp [hp,entriesOf,reader,get_unlink]

lemma entriesOf_dropOps (newFile : TablePath) (merged : SSTable)
    (removals : List ManifestRecord) (srcFiles : List TablePath) (path : TablePath) :
    (d.exec (dropOps newFile merged removals srcFiles)).entriesOf path =
      if path ∈ srcFiles then [] else if path = newFile then [] else d.entriesOf path := by
  rw [dropOps,exec_append,entriesOf_unlinkTables,exec_append,entriesOf_records]
  change (if path ∈ srcFiles then [] else entriesOf
    { d with tables := ((d.tables.set newFile none).set newFile (some merged)).unlink newFile } path) = _
  rw [entriesOf,entriesOf,reader,reader,get_unlink,get_set,get_set]
  by_cases hp : path = newFile
  · rw [if_pos hp,if_pos hp]
    rfl
  · rw [if_neg hp,if_neg hp,if_neg hp,if_neg hp]

lemma entriesOf_mergeOps (newFile : TablePath) (merged : SSTable)
    (removals : List ManifestRecord) (srcFiles : List TablePath) (path : TablePath) :
    (d.exec (mergeOps newFile merged removals srcFiles)).entriesOf path =
      if path ∈ srcFiles then [] else if path = newFile then merged.entries else d.entriesOf path := by
  rw [mergeOps,exec_append,entriesOf_unlinkTables,exec_append,entriesOf_records]
  exact if_congr Iff.rfl rfl (entriesOf_built d newFile merged _ path)

/-- A merge has nothing to do, or does what `Merged` says. -/
theorem mergeLevelFiles_cases (db : DBImpl) (srcLevel : ℕ) (srcFiles : List TablePath) :
    (db.mergeLevelFiles srcLevel srcFiles).1 = .Ok ∧
      ((srcFiles = [] ∨ db.options.maxLevel ≤ srcLevel) ∧ (db.mergeLevelFiles srcLevel srcFiles).2 = db ∨
        srcFiles ≠ [] ∧ srcLevel<db.options.maxLevel ∧
          Merged db srcLevel srcFiles (db.mergeLevelFiles srcLevel srcFiles).2) := by
  rw [mergeLevelFiles]
  split
  · rename_i hnil
    exact ⟨rfl,.inl ⟨.inl (isEmpty_iff.mp hnil),rfl⟩⟩
  · rename_i hnil
    split
    · exact ⟨rfl,.inl ⟨.inr (by omega),rfl⟩⟩
    · have hsrc : srcFiles ≠ [] := fun h => hnil (isEmpty_iff.mpr h)
      dsimp only
      split
      · rename_i hempty
        have hkept := isEmpty_iff.mp hempty
        refine ⟨rfl,.inr ⟨hsrc,by omega,rfl,rfl,rfl,rfl,rfl,Nat.lt_succ_self _,?_,?_⟩⟩
        · intro i
          change filesAt (eraseFiles db.version.levels srcLevel _) i = _
          simp [filesAt_eraseFiles,hkept]
        · intro path
          rw [entriesOf_dropOps,hkept]
      · rename_i hempty
        have hkept : (mergedTable db.disk srcFiles).entries ≠ [] := fun h => hempty (isEmpty_iff.mpr h)
        refine ⟨rfl,.inr ⟨hsrc,by omega,rfl,rfl,rfl,rfl,rfl,?_,?_,?_⟩⟩
        · exact Nat.lt_of_lt_of_le (Nat.lt_succ_self _) (Nat.le_max_left _ _)
        · intro i
          change filesAt (eraseFiles (pushFile db.version.levels (srcLevel+1) _) srcLevel _) i = _
          by_cases hi : srcLevel = i
          · subst hi
            simp
          · simp [hi,hkept]
        · intro path
          rw [entriesOf_mergeOps]

end DBImpl
end TitanKV.Minikv
