import TitanKV.Minikv.DBImpl

/-! Opening a database: the MANIFEST restores the level lists, orphan tables are unlinked,
the MANIFEST is rewritten as a snapshot, and every WAL file is replayed in order of its
number into one fresh MemTable. -/
namespace TitanKV.Minikv

def livePaths (ls : Levels) : List TablePath := ls.flatten.map (·.path)

/-- `recoverActivePathUnlocked`: prefer MANIFEST, else promote `.new`, else restore `.bak`. -/
def activateOps (m : ManifestFiles) : List ManifestOp :=
  if m.active.isSome then [.unlinkNew]
  else if m.new.isSome then [.promote]
  else if m.bak.isSome then [.restore]
  else []

def openManifestOps (m : ManifestFiles) : List ManifestOp := activateOps m ++ [.create]

/-- `purgeOrphanSSTables`; only the directories `level-0` to `level-<max_level>` are walked. -/
def purgeOps (options : Options) (tables : Directory TablePath (Option SSTable)) (ls : Levels) :
    List TableOp :=
  (tables.names.filter fun path => path.level≤options.maxLevel ∧ path ∉ livePaths ls).map .unlink

def snapshotOps (ls : Levels) : List ManifestOp :=
  .createNew::(recordChunks (snapshotRecords ls)).map .writeNew ++ [.unlinkBak,.archive,.promote]

def listWalFiles (d : Disk) : Directory ℕ Bytes := d.wals.insertionSort fun a b => a.1≤b.1

/-- The version after the MANIFEST and the WAL files have been seen. -/
def recoverVersion (d : Disk) : Version :=
  (listWalFiles d).foldl (fun v w => v.ensureNextFileNumberAtLeast (w.1+1))
    (Version.init.restoreFrom d.listed)

def recoverOps (options : Options) (d : Disk) : List FsOp :=
  (openManifestOps d.manifest).map .manifest ++
    (purgeOps options d.tables d.listed).map .table ++ (snapshotOps d.listed).map .manifest ++
    if d.wals.isEmpty then [.wal (.create (recoverVersion d).nextFileNumber)] else []

namespace DBImpl

/-- With no WAL file to continue, `openWal` creates one under the next number. -/
def recover (options : Options) (d : Disk) : DBImpl :=
  let wals := listWalFiles d
  let replayed := wals.foldl (fun s w => replayWalFile s w.2) (MemTable.empty,0)
  { options := options
    memtable := ⟨0,replayed.1⟩
    immutableList := []
    flushQueue := []
    seq := replayed.2
    currentWal := match wals.getLast? with
      | none => (recoverVersion d).nextFileNumber
      | some newest => newest.1
    obsoleteWals := wals.names.dropLast
    version := if wals.isEmpty then (recoverVersion d).advance else recoverVersion d
    nextId := 1
    disk := d.exec (recoverOps options d) }

def fresh (options : Options) : DBImpl := recover options ⟨[],[],⟨none,none,none⟩⟩

end DBImpl
end TitanKV.Minikv
