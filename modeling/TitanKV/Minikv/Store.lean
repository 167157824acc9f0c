import TitanKV.Minikv.BloomFilter
import TitanKV.Minikv.DBImpl
import TitanKV.Minikv.ManifestFile
import TitanKV.Minikv.Paths
import TitanKV.Minikv.SSTableReader

/-! The database object over the bytes of its files, for calls that may fail. Only what the
flush thread and compaction use is kept. The result of `fdatasync` is ignored by all of them
and changes nothing that can be read back, so it has no place here. -/
namespace TitanKV.Minikv
open BloomFilter

/-- SSTables and their filters are files named by path strings. -/
structure Store where
  dbPath : Bytes
  blockSize : ℕ
  compression : CompressionType
  maxLevel : ℕ
  immutableList : List MemTableRef
  levels : LevelLists Bytes
  nextFileNumber : ℕ
  files : Directory Bytes Bytes
  manifest : OutFile
  wals : Directory ℕ Bytes

/-- What the calls of one flush or merge that write something do: `open` and the `write`s of
the table, the filter's stream, whose failure leaves some first part of it, and the `write`s
to the MANIFEST. -/
structure WriteFaults where
  opened : Bool
  writes : List WriteOutcome
  sidecarOpened : Bool
  sidecarWrite : WriteOutcome
  manifestWrites : List WriteOutcome
  deriving DecidableEq, Repr

def Entry.bytes (e : Entry) : KeyValue := (e.key.encode,e.value)

def sidecarPath (path : Bytes) : Bytes := path ++ ascii ['.','b','l','o','o','m']

def bloomOf (es : List KeyValue) : BloomFilter :=
  (init 10000).addAll (es.map fun e => internalKeyUserKey e.1)

lemma sized_bloomOf (es : List KeyValue) : (bloomOf es).Sized :=
  (sized_init (by norm_num)).addAll _

lemma bloomOf_mightContain {es : List KeyValue} {e : KeyValue} (he : e ∈ es) :
    (bloomOf es).mightContain (internalKeyUserKey e.1) = true :=
  (sized_init (by norm_num)).mightContain_addAll (List.mem_map_of_mem he)

lemma mightContain_bloomOf {es : List KeyValue} {e : KeyValue} (he : e ∈ es) {stack : Bytes}
    (hstack : stack.length = 16) :
    (load stack (bloomOf es).persist).mightContain (internalKeyUserKey e.1) = true := by
  rw [(sized_bloomOf es).load_persist stack hstack]
  exact bloomOf_mightContain he

namespace Store
variable (codec : Codec) (s : Store)

def facing (outcomes : List WriteOutcome) : Store := { s with manifest := { s.manifest with outcomes := outcomes } }

/-- `Version::addLevelFile`, which ignores the status of `recordAddFile`. -/
def addLevelFile (level : ℕ) (path : Bytes) : Store :=
  let fileNo := (fileNumberOf path).getD s.nextFileNumber
  { s with
    levels := pushFile s.levels level ⟨path,fileNo⟩
    nextFileNumber := max s.nextFileNumber (fileNo+1)
    manifest := (writeRecordToFd s.manifest (.add level path fileNo)).2 }

/-- `Version::removeLevelFiles`, which ignores the status of every `recordRemoveFile`. -/
def removeLevelFiles (level : ℕ) (paths : List Bytes) : Store :=
  let gone := (filesAt s.levels level).filter fun m => paths.contains m.path
  { s with
    levels := eraseFiles s.levels level fun m => paths.contains m.path
    manifest := gone.foldl (fun f m => (writeRecordToFd f (.del level m.path m.fileNumber)).2) s.manifest }

/-- The files that a builder leaves behind once it is finished: the table with what was written
of it, if it could be opened, and the filter of the entries that were added. -/
def tableFiles (faults : WriteFaults) (path : Bytes) (added : List KeyValue) (content : Bytes) :
    Directory Bytes Bytes :=
  let files := if faults.opened then s.files.set path content else s.files
  if faults.sidecarOpened then files.set (sidecarPath path) (faults.sidecarWrite.written (bloomOf added).persist)
  else files

def eraseImmutable (m : MemTableRef) : Store :=
  { s with immutableList := s.immutableList.eraseP fun x => x.id = m.id }

def unlinkWals (wals : List ℕ) : Store := { s with wals := wals.foldl Directory.unlink s.wals }

def flushPath : Bytes := tablePath s.dbPath ⟨0,s.nextFileNumber⟩

def flushBuilder (faults : WriteFaults) (es : List KeyValue) : SSTableBuilder :=
  (((SSTableBuilder.init s.blockSize s.compression faults.opened faults.writes).addAll codec es).finish codec).2

/-- `flushOne` up to the point where it takes the table for durable. -/
def writeLevel0 (faults : WriteFaults) (es : List KeyValue) : Store :=
  let built := { s.facing faults.manifestWrites with
    nextFileNumber := s.nextFileNumber+1
    files := s.tableFiles faults s.flushPath es (s.flushBuilder codec faults es).file.content }
  built.addLevelFile 0 s.flushPath

def flushOne (faults : WriteFaults) (flushing : MemTableRef) (wals : List ℕ) : Store :=
  if flushing.table.isEmpty then (s.unlinkWals wals).eraseImmutable flushing
  else ((s.writeLevel0 codec faults (flushing.table.chain.map Entry.bytes)).eraseImmutable flushing).unlinkWals wals

def listed : List (FileMeta Bytes) := (manifestLevels s.manifest.content).flatten

/-- What a scan finds in a file; nothing if it is missing or cannot be read. -/
def entriesAt (path : Bytes) : List KeyValue := ((s.files.get path).bind (tableEntries codec)).getD []

/-- The filter beside a table does not hide a key, whatever a short read leaves on the stack. -/
def FilterPasses (path key : Bytes) : Prop :=
  ∀ content, s.files.get (sidecarPath path) = some content →
    ∀ stack : Bytes, stack.length = 16 → (load stack content).mightContain key = true

/-- An entry can be read from a listed table. -/
def Readable (e : Entry) : Prop :=
  ∃ m ∈ s.listed, e.bytes ∈ s.entriesAt codec m.path ∧ s.FilterPasses m.path e.key.userKey

/-- A flush that gives up the MemTable or a WAL file leaves every entry readable. -/
def KeepsOnlyCopy (faults : WriteFaults) (flushing : MemTableRef) (wals : List ℕ) : Prop :=
  let after := s.flushOne codec faults flushing wals
  after.immutableList ≠ s.immutableList ∨ after.wals ≠ s.wals →
    ∀ e ∈ flushing.table.chain, after.Readable codec e

end Store
end TitanKV.Minikv
