import TitanKV.Minikv.Paths
import TitanKV.Minikv.Session

/-! `recover` of a database that is opened under another path than before. The MANIFEST holds
path strings built from the path of the session that wrote them; the purge compares them with
strings built from the path of this session. -/
namespace TitanKV.Minikv
open CrashPoints List

/-- The path strings in a MANIFEST that was written under `recorded`. -/
def recordedPaths (recorded : Bytes) (ls : Levels) : List Bytes := (livePaths ls).map (tablePath recorded)

/-- The tables that `purgeOrphanSSTables` takes for orphans when the database is opened under
`dbPath`. -/
def orphansAt (options : Options) (recorded dbPath : Bytes) (d : Disk) : List TablePath :=
  d.tables.names.filter fun p =>
    p.level≤options.maxLevel ∧ tablePath dbPath p ∉ recordedPaths recorded d.listed

/-- The calls of `recover` under `dbPath`. -/
def recoverOpsAt (options : Options) (recorded dbPath : Bytes) (d : Disk) : List FsOp :=
  (openManifestOps d.manifest).map .manifest ++
    ((orphansAt options recorded dbPath d).map .unlink).map .table ++
    (snapshotOps d.listed).map .manifest ++
    if d.wals.isEmpty then [.wal (.create (recoverVersion d).nextFileNumber)] else []

variable {recorded dbPath : Bytes} {p : TablePath}

lemma tablePath_mem_recordedPaths {ls : Levels} :
    tablePath dbPath p ∈ recordedPaths recorded ls ↔ dbPath = recorded ∧ p ∈ livePaths ls := by
  rw [recordedPaths,mem_map]
  constructor
  · rintro ⟨q,hq,hpath⟩
    obtain ⟨rfl,rfl⟩ := tablePath_inj.mp hpath
    exact ⟨rfl,hq⟩
  · rintro ⟨rfl,hp⟩
    exact ⟨p,hp,rfl⟩

/-- Under the same path the strings decide as the files themselves do. -/
theorem recoverOpsAt_self (options : Options) (dbPath : Bytes) (d : Disk) :
    recoverOpsAt options dbPath dbPath d = recoverOps options d := by
  simp only [recoverOpsAt,recoverOps,orphansAt,purgeOps,tablePath_mem_recordedPaths,true_and]

lemma mem_orphansAt {options : Options} {d : Disk} :
    p ∈ orphansAt options recorded dbPath d ↔
      p ∈ d.tables.names ∧ p.level≤options.maxLevel ∧ (dbPath = recorded → p ∉ livePaths d.listed) := by
  simp only [orphansAt,mem_filter,decide_eq_true_eq,tablePath_mem_recordedPaths,not_and]

lemma unlink_mem_recoverOpsAt {options : Options} {d : Disk} :
    FsOp.table (.unlink p) ∈ recoverOpsAt options recorded dbPath d ↔
      p ∈ orphansAt options recorded dbPath d := by
  simp [recoverOpsAt]

lemma get_exec_unlink (tables : Directory TablePath (Option SSTable)) (gone : List TablePath)
    (p : TablePath) :
    (exec TableOp.apply tables (gone.map .unlink)).get p = if p ∈ gone then none else tables.get p := by
  induction gone generalizing tables with
  | nil => rfl
  | cons q gone ih =>
    rw [map_cons,exec_cons,ih]
    simp only [TableOp.apply,Directory.get_unlink,mem_cons]
    by_cases hp : p = q <;> simp [hp]

lemma reader_recoverOpsAt (options : Options) (recorded dbPath : Bytes) (d : Disk) (p : TablePath)
    (h : FsOp.table (.unlink p) ∉ recoverOpsAt options recorded dbPath d) :
    (d.exec (recoverOpsAt options recorded dbPath d)).reader p = d.reader p := by
  have htables : (d.exec (recoverOpsAt options recorded dbPath d)).tables =
      exec TableOp.apply d.tables ((orphansAt options recorded dbPath d).map .unlink) := by
    rw [recoverOpsAt,Disk.exec_append,Disk.exec_append,Disk.exec_append,Disk.exec_map_manifest,
      Disk.exec_map_table,Disk.exec_map_manifest]
    split <;> rfl
  rw [Disk.reader,Disk.reader,htables,get_exec_unlink,if_neg]
  exact fun hp => h (unlink_mem_recoverOpsAt.mpr hp)

/-- `SSTableReader::open` on a path string while the strings in `names` name the directory. -/
def Opens (names : Set Bytes) (d : Disk) (path : Bytes) (t : SSTable) : Prop :=
  ∃ dir p, dir ∈ names ∧ path = tablePath dir p ∧ d.reader p = some t

/-- No listed table is unlinked, and each one is still found under its recorded string. -/
def KeepsListed (options : Options) (names : Set Bytes) (recorded dbPath : Bytes) (d : Disk) : Prop :=
  ∀ p ∈ livePaths d.listed, FsOp.table (.unlink p) ∉ recoverOpsAt options recorded dbPath d ∧
    ∀ t, d.reader p = some t →
      Opens names (d.exec (recoverOpsAt options recorded dbPath d)) (tablePath recorded p) t

/-- Opened under a path that names its directory, a database keeps its tables exactly when the
path is spelled as before, unless all of them lie below the levels that are purged and the old
spelling still names the directory. -/
theorem keepsListed_iff (options : Options) {names : Set Bytes} (recorded : Bytes) {dbPath : Bytes}
    (hname : dbPath ∈ names) {d : Disk} (hlisted : ∀ p ∈ livePaths d.listed, ∃ t, d.reader p = some t) :
    KeepsListed options names recorded dbPath d ↔
      dbPath = recorded ∨ ∀ p ∈ livePaths d.listed, options.maxLevel<p.level ∧ recorded ∈ names := by
  constructor
  · intro h
    by_cases hsame : dbPath = recorded
    · exact .inl hsame
    · refine .inr fun p hp => ?_
      obtain ⟨hkept,hopens⟩ := h p hp
      obtain ⟨t,ht⟩ := hlisted p hp
      have hstored : p ∈ d.tables.names := by
        by_contra hmissing
        rw [Disk.reader,Directory.get_eq_none_iff.mpr hmissing] at ht
        cases ht
      constructor
      · by_contra hlevel
        exact hkept (unlink_mem_recoverOpsAt.mpr
          (mem_orphansAt.mpr ⟨hstored,by omega,fun hs => (hsame hs).elim⟩))
      · obtain ⟨dir,q,hdir,hpath,-⟩ := hopens t ht
        rw [(tablePath_inj.mp hpath).1]
        exact hdir
  · intro h p hp
    have hkept : FsOp.table (.unlink p) ∉ recoverOpsAt options recorded dbPath d := by
      rw [unlink_mem_recoverOpsAt,mem_orphansAt]
      rintro ⟨-,hlevel,hdead⟩
      rcases h with hsame | hdeep
      · exact hdead hsame hp
      · have := (hdeep p hp).1
        omega
    refine ⟨hkept,fun t ht => ⟨recorded,p,?_,rfl,?_⟩⟩
    · rcases h with rfl | hdeep
      · exact hname
      · exact (hdeep p hp).2
    · rw [reader_recoverOpsAt options recorded dbPath d p hkept]
      exact ht

def flushedOnce : Disk := ((DBImpl.fresh ⟨100,6⟩).run [.write [[⟨.put,[1],[2]⟩]],.freeze,.flush]).disk

lemma reader_flushedOnce : ∀ p ∈ livePaths flushedOnce.listed, ∃ t, flushedOnce.reader p = some t := by
  intro p hp
  rw [mem_singleton.mp hp]
  exact Option.isSome_iff_exists.mp (by decide +kernel)

theorem keepsListed_under_same_path :
    KeepsListed ⟨100,6⟩ {ascii ['d','b']} (ascii ['d','b']) (ascii ['d','b']) flushedOnce :=
  (keepsListed_iff ⟨100,6⟩ (ascii ['d','b']) (Set.mem_singleton _) reader_flushedOnce).mpr (.inl rfl)

/-- Opened as `./db` the same directory loses its only table. -/
theorem not_keepsListed_under_dotted_path :
    ¬ KeepsListed ⟨100,6⟩ {ascii ['d','b'],ascii ['.','/','d','b']} (ascii ['d','b'])
        (ascii ['.','/','d','b']) flushedOnce ∧
      flushedOnce.entriesOf ⟨0,3⟩ = [⟨⟨[1],1,.value⟩,[2]⟩] ∧
      (flushedOnce.exec (recoverOpsAt ⟨100,6⟩ (ascii ['d','b']) (ascii ['.','/','d','b'])
        flushedOnce)).entriesOf ⟨0,3⟩ = [] := by
  refine ⟨fun h => ?_,by decide +kernel,by decide +kernel⟩
  have hlive : ⟨0,3⟩ ∈ livePaths flushedOnce.listed := by
    exact mem_singleton_self _
  exact (h ⟨0,3⟩ hlive).1 (unlink_mem_recoverOpsAt.mpr (by decide +kernel))

end TitanKV.Minikv
