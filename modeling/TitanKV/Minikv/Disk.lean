import TitanKV.Library.CrashPoints
import TitanKV.Library.Directory
import TitanKV.Minikv.Manifest
import TitanKV.Minikv.Wal

/-! The files under `db_path_` and the system calls that change them, each one an atomic
step. An SSTable is the run of entries it was built from; it is unreadable until its footer
is written. A MANIFEST record is written in two calls, its header and its payload. -/
namespace TitanKV.Minikv
open Directory

structure SSTable where
  entries : List Entry
  ascending : Ascending entries

def SSTable.get (t : SSTable) (userKey : Bytes) : Option Bytes := lookup userKey t.entries

inductive Chunk
  | header (r : ManifestRecord)
  | payload (r : ManifestRecord)
  deriving DecidableEq, Repr

/-- The records before the first one that is not complete. -/
def replayLog : List Chunk → List ManifestRecord
  | .header r::.payload r'::rest => if r = r' then r::replayLog rest else []
  | _ => []

def recordChunks (records : List ManifestRecord) : List Chunk :=
  records.flatMap fun r => [.header r,.payload r]

variable (records : List ManifestRecord)

theorem replayLog_append (tail : List Chunk) :
    replayLog (recordChunks records ++ tail) = records ++ replayLog tail := by
  induction records with
  | nil => rfl
  | cons r records ih =>
    have hcons : recordChunks (r::records) ++ tail =
        .header r::.payload r::(recordChunks records ++ tail) := rfl
    rw [hcons,replayLog,if_pos rfl,ih]
    rfl

lemma replayLog_recordChunks :
    replayLog (recordChunks records) = records := by
  have h := replayLog_append records []
  simpa [replayLog] using h

/-- `MANIFEST`, `MANIFEST.new` and `MANIFEST.bak`. -/
structure ManifestFiles where
  active : Option (List Chunk)
  new : Option (List Chunk)
  bak : Option (List Chunk)

/-- The log that the next `open` will read. -/
def ManifestFiles.log (m : ManifestFiles) : List Chunk := ((m.active.or m.new).or m.bak).getD []

lemma ManifestFiles.log_of_active {m : ManifestFiles} {log : List Chunk} (h : m.active = some log) :
    m.log = log := by
  rw [ManifestFiles.log,h]
  rfl

structure Disk where
  wals : Directory ℕ Bytes
  tables : Directory TablePath (Option SSTable)
  manifest : ManifestFiles

inductive WalOp
  | create (n : ℕ)
  | append (n : ℕ) (data : Bytes)
  | unlink (n : ℕ)

inductive TableOp
  | create (path : TablePath)
  | complete (path : TablePath) (t : SSTable)
  | unlink (path : TablePath)

inductive ManifestOp
  | create
  | write (c : Chunk)
  | createNew
  | writeNew (c : Chunk)
  | unlinkNew
  | unlinkBak
  | archive
  | promote
  | restore

inductive FsOp
  | wal (op : WalOp)
  | table (op : TableOp)
  | manifest (op : ManifestOp)

def TableOp.path : TableOp → TablePath
  | create path | complete path _ | unlink path => path

/-- A WAL is opened with `O_CREAT | O_APPEND`, which keeps a file that exists. -/
def WalOp.apply (wals : Directory ℕ Bytes) : WalOp → Directory ℕ Bytes
  | create n => if n ∈ wals.names then wals else wals++[(n,[])]
  | append n data => wals.update n (· ++ data)
  | unlink n => wals.unlink n

/-- An SSTable is opened with `O_CREAT | O_TRUNC`. -/
def TableOp.apply (tables : Directory TablePath (Option SSTable)) :
    TableOp → Directory TablePath (Option SSTable)
  | create path => tables.set path none
  | complete path t => tables.set path (some t)
  | unlink path => tables.unlink path

/-- The last three are the renames to `MANIFEST.bak`, from `MANIFEST.new` and from
`MANIFEST.bak`. -/
def ManifestOp.apply (m : ManifestFiles) : ManifestOp → ManifestFiles
  | create => { m with active := some (m.active.getD []) }
  | write c => { m with active := m.active.map (· ++ [c]) }
  | createNew => { m with new := some [] }
  | writeNew c => { m with new := m.new.map (· ++ [c]) }
  | unlinkNew => { m with new := none }
  | unlinkBak => { m with bak := none }
  | archive => if m.active.isSome then { m with active := none, bak := m.active } else m
  | promote => if m.new.isSome then { m with active := m.new, new := none } else m
  | restore => if m.bak.isSome then { m with active := m.bak, bak := none } else m

namespace Disk
open CrashPoints

def apply (d : Disk) : FsOp → Disk
  | .wal op => { d with wals := op.apply d.wals }
  | .table op => { d with tables := op.apply d.tables }
  | .manifest op => { d with manifest := op.apply d.manifest }

abbrev exec (d : Disk) (ops : List FsOp) : Disk := CrashPoints.exec apply d ops

variable (d : Disk)

lemma exec_append (ops more : List FsOp) : d.exec (ops++more) = (d.exec ops).exec more :=
  CrashPoints.exec_append ops more

section Components
variable (d : Disk) {P : Disk → Prop}

lemma exec_map_table (ops : List TableOp) :
    d.exec (ops.map .table) = { d with tables := CrashPoints.exec TableOp.apply d.tables ops } := by
  induction ops generalizing d with
  | nil => rfl
  | cons op ops ih => exact ih _

lemma exec_map_manifest (ops : List ManifestOp) :
    d.exec (ops.map .manifest) =
      { d with manifest := CrashPoints.exec ManifestOp.apply d.manifest ops } := by
  induction ops generalizing d with
  | nil => rfl
  | cons op ops ih => exact ih _

lemma along_map_table {ops : List TableOp}
    (h : Along TableOp.apply (fun t => P { d with tables := t }) d.tables ops) :
    Along apply P d (ops.map .table) := by
  induction ops generalizing d with
  | nil => exact h
  | cons op ops ih => exact ⟨h.1,ih (d.apply (.table op)) h.2⟩

lemma along_map_manifest {ops : List ManifestOp}
    (h : Along ManifestOp.apply (fun m => P { d with manifest := m }) d.manifest ops) :
    Along apply P d (ops.map .manifest) := by
  induction ops generalizing d with
  | nil => exact h
  | cons op ops ih => exact ⟨h.1,ih (d.apply (.manifest op)) h.2⟩

end Components

def listed (d : Disk) : Levels := replayRecords (replayLog d.manifest.log)

variable {d} in
lemma listed_of_active {records : List ManifestRecord} {tail : List Chunk}
    (h : d.manifest.active = some (recordChunks records ++ tail)) (htail : replayLog tail = []) :
    d.listed = replayRecords records := by
  rw [listed,ManifestFiles.log_of_active h,replayLog_append,htail,List.append_nil]

/-- `SSTableReader::open`: no reader for a missing or incomplete file. -/
def reader (d : Disk) (path : TablePath) : Option SSTable := (d.tables.get path).join

/-- The entries a scan of the file returns; a file that cannot be opened has none. -/
def entriesOf (d : Disk) (path : TablePath) : List Entry :=
  match d.reader path with
  | none => []
  | some reader => reader.entries

lemma ascending_entriesOf (path : TablePath) : Ascending (d.entriesOf path) := by
  rw [entriesOf]
  split
  · exact List.Pairwise.nil
  · rename_i t _
    exact t.ascending

lemma entriesOf_tableOp (op : TableOp) {path : TablePath} (h : path ≠ op.path) :
    (d.apply (.table op)).entriesOf path = d.entriesOf path := by
  cases op with
  | create p | complete p t => simp [entriesOf,reader,apply,TableOp.apply,get_set,show path ≠ p from h]
  | unlink p => simp [entriesOf,reader,apply,TableOp.apply,get_unlink,show path ≠ p from h]

lemma bind_get_eq (path : TablePath) (k : Bytes) :
    ((d.reader path).bind fun reader => reader.get k) = lookup k (d.entriesOf path) := by
  rw [entriesOf]
  cases d.reader path <;> rfl

end Disk

def recordOps (r : ManifestRecord) : List FsOp :=
  [.manifest (.write (.header r)),.manifest (.write (.payload r))]

namespace Disk

variable (d : Disk)

lemma exec_recordOps (records : List ManifestRecord) :
    d.exec (records.flatMap recordOps) = { d with manifest := { d.manifest with
      active := d.manifest.active.map (· ++ recordChunks records) } } := by
  induction records generalizing d with
  | nil => simp [exec,CrashPoints.exec,recordChunks]
  | cons r records ih =>
    rw [List.flatMap_cons,exec_append,ih]
    have hcons : recordChunks (r::records) = .header r::.payload r::recordChunks records := rfl
    rw [hcons]
    cases hactive : d.manifest.active with
    | none | some log => simp [recordOps,exec,CrashPoints.exec,apply,ManifestOp.apply,hactive]

lemma reader_build (path : TablePath) (t : SSTable) (p : TablePath) :
    (d.exec [.table (.create path),.table (.complete path t)]).reader p =
      if p = path then some t else d.reader p := by
  change Disk.reader { d with tables := (d.tables.set path none).set path (some t) } p = _
  rw [reader,reader,get_set,get_set]
  split <;> rfl

lemma exec_unlinkTables (paths : List TablePath) :
    d.exec (paths.map fun path => .table (.unlink path)) =
      { d with tables := paths.foldl unlink d.tables } := by
  induction paths generalizing d with
  | nil => rfl
  | cons path paths ih => exact ih _

end Disk
end TitanKV.Minikv
