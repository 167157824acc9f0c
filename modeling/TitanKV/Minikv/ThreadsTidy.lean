import TitanKV.Minikv.Ages
import TitanKV.Minikv.CrashRecovery
import TitanKV.Minikv.Threads

/-! What holds of the threads between any two steps: a thread that is building a table does so under a
path that is not listed, the sources of a merge stay listed and as they were until they are retracted,
and a MemTable stays readable until its table is listed. -/
namespace TitanKV.Minikv
open List Version

section Lists
variable (v : Version) (level i : ℕ)

lemma Version.getLevelFiles_addLevelFile (path : TablePath) : (v.addLevelFile level path).getLevelFiles i =
    if level = i then v.getLevelFiles i ++ [path] else v.getLevelFiles i := by
  rw [getLevelFiles,addLevelFile,filesAt_pushFile]
  split
  · exact map_append
  · rfl

variable (paths : List TablePath)

lemma Version.getLevelFiles_removeLevelFiles :
    (v.removeLevelFiles level paths).getLevelFiles i =
      if level = i then (v.getLevelFiles i).filter fun path => path ∉ paths else v.getLevelFiles i := by
  rw [getLevelFiles,removeLevelFiles,filesAt_eraseFiles]
  split
  · rw [getLevelFiles,filter_map]
    congr 2
    funext m
    simp
  · rfl

lemma Version.getLevelFiles_isPrefix_addLevelFile (path : TablePath) :
    v.getLevelFiles i <+: (v.addLevelFile level path).getLevelFiles i := by
  rw [getLevelFiles_addLevelFile]
  split
  · exact prefix_append _ _
  · exact prefix_rfl

lemma Version.getLevelFiles_removeLevelFiles_subset :
    (v.removeLevelFiles level paths).getLevelFiles i ⊆ v.getLevelFiles i := by
  rw [getLevelFiles_removeLevelFiles]
  split
  · exact fun _ => mem_of_mem_filter
  · exact Subset.refl _

end Lists

namespace DBImpl

/-- A path that was given out and is not listed. -/
def Unlisted (db : DBImpl) (path : TablePath) : Prop :=
  path.number<db.version.nextFileNumber ∧ path ∉ db.version.getLevelFiles path.level

lemma Placed.of_mem {db : DBImpl} (h : db.Placed) {i : ℕ} {path : TablePath}
    (hpath : path ∈ db.version.getLevelFiles i) : path.level = i ∧ path.number<db.version.nextFileNumber := by
  obtain ⟨m,hm,rfl⟩ := mem_map.mp hpath
  exact h i m hm

lemma Unlisted.ne {db : DBImpl} (hp : db.Placed) {path : TablePath} (h : db.Unlisted path) {i : ℕ}
    {p : TablePath} (hlisted : p ∈ db.version.getLevelFiles i) : p ≠ path := by
  rintro rfl
  rw [← (hp.of_mem hlisted).1] at hlisted
  exact h.2 hlisted

/-- Files are where their paths say, and a frozen MemTable is never taken for the active one. -/
structure Tidy (db : DBImpl) : Prop where
  placed : db.Placed
  older : ∀ m ∈ db.immutableList, m.id<db.memtable.id
  nextId : db.memtable.id<db.nextId

end DBImpl

/-- The MemTable that is readable until the flush thread erases it. -/
def FlushThread.held : FlushThread → List MemTableRef
  | creating entry _ | building entry _ | listing entry _ | erasing entry | dropping entry _ => [entry.memtable]
  | waiting | unlinking _ => []

def FlushThread.target : FlushThread → Option TablePath
  | creating _ path | building _ path | listing _ path => some path
  | _ => none

def CompactionThread.target : CompactionThread → Option TablePath
  | creating _ _ newFile _ | building _ _ newFile _ | listing _ _ newFile _ => some newFile
  | _ => none

/-- The files that a merge has read or will unlink. -/
def CompactionThread.sources : CompactionThread → List TablePath
  | reading _ sources _ _ | creating _ sources _ _ | building _ sources _ _ | listing _ sources _ _
  | retracting _ sources | unlinking sources => sources
  | waiting => []

def FlushThread.Sound (db : DBImpl) : FlushThread → Prop
  | waiting | erasing _ | unlinking _ => True
  | creating _ path | building _ path => db.Unlisted path ∧ path.level = 0
  | listing entry path =>
    (db.Unlisted path ∧ path.level = 0) ∧ db.disk.entriesOf path = entry.memtable.table.chain
  | dropping entry _ => entry.memtable.table.chain = []

/-- A merge whose sources are listed; files flushed since then come behind them. -/
structure Merging (db : DBImpl) (level : ℕ) (sources : List TablePath) : Prop where
  below : level<db.options.maxLevel
  listed : sources <+: db.version.getLevelFiles level

structure MergedInto (db : DBImpl) (level : ℕ) (sources : List TablePath) (newFile : TablePath)
    (merged : SSTable) : Prop extends Merging db level sources where
  merged : merged = mergedTable db.disk sources
  unlisted : db.Unlisted newFile
  deeper : newFile.level = level+1

def CompactionThread.Sound (db : DBImpl) : CompactionThread → Prop
  | waiting => True
  | reading level sources rest all =>
    Merging db level sources ∧ rest ⊆ sources ∧ sourceEntries db.disk sources = all ++ sourceEntries db.disk rest
  | creating level sources newFile merged | building level sources newFile merged =>
    MergedInto db level sources newFile merged
  | listing level sources newFile merged =>
    MergedInto db level sources newFile merged ∧ db.disk.entriesOf newFile = merged.entries
  | retracting level sources =>
    Merging db level sources ∧ ((mergedTable db.disk sources).entries = [] ∨
      ∃ newFile ∈ db.version.getLevelFiles (level+1),
        db.disk.entriesOf newFile = (mergedTable db.disk sources).entries)
  | unlinking paths => ∀ path ∈ paths, db.Unlisted path

structure Threads.Tidy (s : Threads) : Prop where
  db : s.db.Tidy
  -- the flush thread works through the frozen MemTables in order
  frozen : s.db.immutableList = s.flusher.held ++ s.db.flushQueue.map FlushEntry.memtable
  flusher : s.flusher.Sound s.db
  compactor : s.compactor.Sound s.db
  apart : ∀ path, s.flusher.target = some path → path ∉ s.compactor.sources

section Frames
variable {db db' : DBImpl}

variable {f : FlushThread}

lemma FlushThread.Sound.frame (h : f.Sound db)
    (hunlisted : ∀ path, f.target = some path → db.Unlisted path → db'.Unlisted path)
    (hentries : ∀ path, f.target = some path → db'.disk.entriesOf path = db.disk.entriesOf path) :
    f.Sound db' := by
  cases f with
  | waiting | erasing entry | unlinking wals => trivial
  | creating entry path | building entry path => exact ⟨hunlisted path rfl h.1,h.2⟩
  | listing entry path => exact ⟨⟨hunlisted path rfl h.1.1,h.1.2⟩,(hentries path rfl).trans h.2⟩
  | dropping entry wals => exact h

variable {sources : List TablePath}

lemma sourceEntries_congr {d d' : Disk}
    (h : ∀ path ∈ sources, d'.entriesOf path = d.entriesOf path) :
    sourceEntries d' sources = sourceEntries d sources :=
  flatMap_congr h

lemma mergedTable_congr {d d' : Disk}
    (h : ∀ path ∈ sources, d'.entriesOf path = d.entriesOf path) :
    mergedTable d' sources = mergedTable d sources := by
  change mergedOf (sourceEntries d' sources) = mergedOf (sourceEntries d sources)
  rw [sourceEntries_congr h]

variable {c : CompactionThread}

/-- The compaction thread is not disturbed by files that are added behind those it reads. -/
lemma CompactionThread.Sound.frame (h : c.Sound db)
    (hoptions : db'.options = db.options)
    (hlists : ∀ i, db.version.getLevelFiles i <+: db'.version.getLevelFiles i)
    (hunlisted : ∀ path, path ∈ c.sources ∨ c.target = some path → db.Unlisted path → db'.Unlisted path)
    (hentries : ∀ path, (path ∈ c.sources ∨ c.target = some path ∨ ∃ i, path ∈ db.version.getLevelFiles i) →
      db'.disk.entriesOf path = db.disk.entriesOf path) :
    c.Sound db' := by
  have hmerging : ∀ {level : ℕ} {sources : List TablePath}, Merging db level sources → Merging db' level sources :=
    fun h => ⟨hoptions ▸ h.below,h.listed.trans (hlists _)⟩
  have hinto : ∀ {level : ℕ} {newFile : TablePath} {merged : SSTable}, c.target = some newFile →
      MergedInto db level c.sources newFile merged → MergedInto db' level c.sources newFile merged := by
    intro level newFile merged ht h
    exact ⟨hmerging h.toMerging,h.merged.trans (mergedTable_congr fun p hp => hentries p (.inl hp)).symm,
      hunlisted _ (.inr ht) h.unlisted,h.deeper⟩
  cases c with
  | waiting => trivial
  | reading level sources rest all =>
    have hsame : ∀ path ∈ sources, db'.disk.entriesOf path = db.disk.entriesOf path :=
      fun p hp => hentries p (.inl hp)
    refine ⟨hmerging h.1,h.2.1,?_⟩
    rw [sourceEntries_congr hsame,sourceEntries_congr fun p hp => hsame p (h.2.1 hp)]
    exact h.2.2
  | creating level sources newFile merged | building level sources newFile merged => exact hinto rfl h
  | listing level sources newFile merged =>
    exact ⟨hinto rfl h.1,(hentries newFile (.inr (.inl rfl))).trans h.2⟩
  | retracting level sources =>
    have hsame : ∀ path ∈ sources, db'.disk.entriesOf path = db.disk.entriesOf path :=
      fun p hp => hentries p (.inl hp)
    refine ⟨hmerging h.1,?_⟩
    rw [mergedTable_congr hsame]
    refine h.2.imp_right ?_
    rintro ⟨newFile,hlisted,heq⟩
    exact ⟨newFile,(hlists _).subset hlisted,(hentries newFile (.inr (.inr ⟨_,hlisted⟩))).trans heq⟩
  | unlinking paths => exact fun p hp => hunlisted p (.inl hp) (h p hp)

variable {path : TablePath}

lemma CompactionThread.Sound.target_level (h : c.Sound db)
    (ht : c.target = some path) : db.Unlisted path ∧ path.level ≠ 0 := by
  have hinto : ∀ {level : ℕ} {sources : List TablePath} {merged : SSTable},
      MergedInto db level sources path merged → db.Unlisted path ∧ path.level ≠ 0 :=
    fun h => ⟨h.unlisted,by rw [h.deeper]; omega⟩
  cases c with
  | creating level sources newFile merged | building level sources newFile merged =>
    obtain rfl := Option.some.inj ht
    exact hinto h
  | listing level sources newFile merged =>
    obtain rfl := Option.some.inj ht
    exact hinto h.1
  | _ => cases ht

lemma CompactionThread.Sound.source_number (h : c.Sound db) (hp : db.Placed) (hpath : path ∈ c.sources) :
    path.number<db.version.nextFileNumber := by
  have hmerging : ∀ {level : ℕ}, Merging db level c.sources → path.number<db.version.nextFileNumber :=
    fun h => (hp.of_mem (h.listed.subset hpath)).2
  cases c with
  | waiting => cases hpath
  | reading level sources rest all | retracting level sources => exact hmerging h.1
  | creating level sources newFile merged | building level sources newFile merged => exact hmerging h.toMerging
  | listing level sources newFile merged => exact hmerging h.1.toMerging
  | unlinking paths => exact (h path hpath).1

lemma FlushThread.Sound.target_level (h : f.Sound db)
    (ht : f.target = some path) : db.Unlisted path ∧ path.level = 0 := by
  cases f with
  | creating entry p | building entry p =>
    obtain rfl := Option.some.inj ht
    exact h
  | listing entry p =>
    obtain rfl := Option.some.inj ht
    exact h.1
  | _ => cases ht

variable {op : TableOp}

lemma CompactionThread.Sound.tableOp (h : c.Sound db) (hp : db.Placed)
    (hunlisted : db.Unlisted op.path) (hsources : op.path ∉ c.sources) (htarget : c.target ≠ some op.path) :
    c.Sound (db.calls [.table op]) := by
  refine h.frame rfl (fun i => prefix_rfl) (fun _ _ h => h) ?_
  rintro path (hpath | hpath | ⟨i,hpath⟩)
  · exact db.disk.entriesOf_tableOp op fun heq => hsources (heq ▸ hpath)
  · exact db.disk.entriesOf_tableOp op fun heq => htarget (heq ▸ hpath)
  · exact db.disk.entriesOf_tableOp op (hunlisted.ne hp hpath)

lemma MergedInto.tableOp {level : ℕ} {newFile : TablePath} {merged : SSTable}
    (h : MergedInto db level sources newFile merged) (hp : db.Placed) (hop : op.path = newFile) :
    MergedInto (db.calls [.table op]) level sources newFile merged := by
  refine ⟨⟨h.below,h.listed⟩,h.merged.trans (mergedTable_congr fun p hpath => ?_).symm,h.unlisted,h.deeper⟩
  refine db.disk.entriesOf_tableOp op ?_
  rw [hop]
  exact h.unlisted.ne hp (h.listed.subset hpath)

lemma FlushThread.Sound.tableOp (h : f.Sound db)
    (htarget : f.target ≠ some op.path) : f.Sound (db.calls [.table op]) := by
  refine h.frame (fun _ _ h => h) ?_
  intro path hpath
  exact db.disk.entriesOf_tableOp op fun heq => htarget (heq ▸ hpath)

lemma Disk.entriesOf_complete (d : Disk) (path : TablePath) (t : SSTable) :
    (d.apply (.table (.complete path t))).entriesOf path = t.entries := by
  simp [entriesOf,reader,apply,TableOp.apply,Directory.get_set]

end Frames

namespace DBImpl
variable {db : DBImpl}

def written (db : DBImpl) (group : WriteGroup) : MemTableRef := (db.writeGroup group).memtable

lemma written_id (db : DBImpl) (group : WriteGroup) : (db.written group).id = db.memtable.id := by
  rw [written,writeGroup]
  split <;> rfl

/-- What a write changes besides the WAL: the active MemTable, which may also be frozen. -/
structure Wrote (db : DBImpl) (group : WriteGroup) (db' : DBImpl) : Prop where
  options : db'.options = db.options
  levels : db'.version.levels = db.version.levels
  next : db.version.nextFileNumber≤db'.version.nextFileNumber
  entries : db'.disk.entriesOf = db.disk.entriesOf
  frozen : db'.memtable = db.written group ∧ db'.nextId = db.nextId ∧
      db'.immutableList = db.immutableList ∧ db'.flushQueue = db.flushQueue ∨
    db'.memtable = ⟨db.nextId,.empty⟩ ∧ db'.nextId = db.nextId+1 ∧
      db'.immutableList = db.immutableList++[db.written group] ∧
      ∃ wals, db'.flushQueue = db.flushQueue++[⟨db.written group,wals⟩]

/-- Before it freezes anything, a write changes the active MemTable, the counter and the WAL only. -/
lemma writeGroup_frame (db : DBImpl) (group : WriteGroup) :
    (db.writeGroup group).options = db.options ∧ (db.writeGroup group).version = db.version ∧
      (db.writeGroup group).nextId = db.nextId ∧ (db.writeGroup group).immutableList = db.immutableList ∧
      (db.writeGroup group).flushQueue = db.flushQueue ∧
      (db.writeGroup group).disk.entriesOf = db.disk.entriesOf := by
  rw [writeGroup]
  split
  · exact ⟨rfl,rfl,rfl,rfl,rfl,rfl⟩
  · exact ⟨rfl,rfl,rfl,rfl,rfl,entriesOf_appendOps _ _ _⟩

lemma wrote_writeGroup (db : DBImpl) (group : WriteGroup) : db.Wrote group (db.writeGroup group) := by
  obtain ⟨hoptions,hversion,hid,himm,hqueue,hentries⟩ := db.writeGroup_frame group
  exact ⟨hoptions,by rw [hversion],by rw [hversion],hentries,.inl ⟨rfl,hid,himm,hqueue⟩⟩

theorem wrote_doWriteGroup (db : DBImpl) (group : WriteGroup) : db.Wrote group (db.doWriteGroup group) := by
  obtain ⟨hoptions,-,hid,himm,hqueue,hentries⟩ := db.writeGroup_frame group
  have hkept := db.wrote_writeGroup group
  rw [doWriteGroup]
  split
  · rename_i hg
    rwa [writeGroup,if_pos hg] at hkept
  · rw [maybeFlush]
    split
    · refine ⟨hoptions,hkept.levels,hkept.next.trans (Nat.le_succ _),hentries,
        .inr ⟨?_,?_,?_,(db.writeGroup group).rotateWal.obsoleteWals,?_⟩⟩
      · rw [← hid]
        rfl
      · rw [← hid]
        rfl
      · rw [← himm]
        rfl
      · rw [← hqueue]
        rfl
    · exact hkept

namespace Tidy
variable {db' : DBImpl}

lemma write (h : db.Tidy) {group : WriteGroup} (hw : db.Wrote group db') : db'.Tidy := by
  have hplaced : db'.Placed := by
    intro i m hm
    rw [hw.levels] at hm
    exact (h.placed i m hm).imp_right fun hn => hn.trans_le hw.next
  rcases hw.frozen with ⟨hmem,hid,himm,-⟩ | ⟨hmem,hid,himm,-⟩
  · refine ⟨hplaced,?_,?_⟩
    · rw [himm,hmem,written_id]
      exact h.older
    · rw [hmem,written_id,hid]
      exact h.nextId
  · refine ⟨hplaced,?_,?_⟩
    · rw [himm,hmem]
      intro m hm
      rcases mem_append.mp hm with hm | hm
      · exact (h.older m hm).trans h.nextId
      · rw [mem_singleton.mp hm,written_id]
        exact h.nextId
    · rw [hmem,hid]
      exact Nat.lt_succ_self _

lemma calls (h : db.Tidy) (ops : List FsOp) : (db.calls ops).Tidy := { h with }

lemma advance (h : db.Tidy) (queue : List FlushEntry) :
    { db with flushQueue := queue, version := db.version.advance }.Tidy :=
  ⟨fun i m hm => (h.placed i m hm).imp_right Nat.lt_succ_of_lt,h.older,h.nextId⟩

lemma addLevelFile (h : db.Tidy) (path : TablePath) :
    { db with version := db.version.addLevelFile path.level path }.Tidy := by
  refine ⟨?_,h.older,h.nextId⟩
  intro i m hm
  change m ∈ filesAt (pushFile db.version.levels path.level ⟨path,path.number⟩) i at hm
  rw [filesAt_pushFile] at hm
  have hold : ∀ m ∈ filesAt db.version.levels i, m.path.level = i ∧
      m.path.number < max db.version.nextFileNumber (path.number+1) :=
    fun m hm => (h.placed i m hm).imp_right fun hn => hn.trans_le (Nat.le_max_left _ _)
  split at hm
  · rename_i hlevel
    rcases mem_append.mp hm with hm | hm
    · exact hold m hm
    · rw [mem_singleton.mp hm]
      exact ⟨hlevel,(Nat.lt_succ_self _).trans_le (Nat.le_max_right _ _)⟩
  · exact hold m hm

lemma removeLevelFiles (h : db.Tidy) (level : ℕ) (paths : List TablePath) :
    { db with version := db.version.removeLevelFiles level paths }.Tidy := by
  refine ⟨?_,h.older,h.nextId⟩
  intro i m hm
  change m ∈ filesAt (eraseFiles db.version.levels level _) i at hm
  rw [filesAt_eraseFiles] at hm
  split at hm
  · exact h.placed i m (mem_of_mem_filter hm)
  · exact h.placed i m hm

lemma eraseImmutable (h : db.Tidy) (m : MemTableRef) : (db.eraseImmutable m).Tidy :=
  ⟨h.placed,fun x hx => h.older x (mem_of_mem_eraseP hx),h.nextId⟩

end Tidy

namespace Unlisted
variable {path p : TablePath} {level : ℕ} {paths : List TablePath}

lemma addLevelFile (h : db.Unlisted p) (hne : p ≠ path) :
    { db with version := db.version.addLevelFile path.level path }.Unlisted p := by
  refine ⟨h.1.trans_le (Nat.le_max_left _ _),?_⟩
  rw [getLevelFiles_addLevelFile]
  split
  · simpa [hne] using h.2
  · exact h.2

lemma removeLevelFiles (h : db.Unlisted p) :
    { db with version := db.version.removeLevelFiles level paths }.Unlisted p :=
  ⟨h.1,fun hlisted => h.2 (db.version.getLevelFiles_removeLevelFiles_subset level p.level paths hlisted)⟩

lemma of_removed (h : db.Placed) (hlisted : p ∈ db.version.getLevelFiles level) (hp : p ∈ paths) :
    { db with version := db.version.removeLevelFiles level paths }.Unlisted p := by
  obtain ⟨hlevel,hnumber⟩ := h.of_mem hlisted
  refine ⟨hnumber,?_⟩
  rw [getLevelFiles_removeLevelFiles,if_pos hlevel.symm]
  simp [hp]

end Unlisted
end DBImpl

namespace Threads
variable {s s' : Threads} {level : ℕ}

lemma Tidy.wrote (h : s.Tidy) {group : WriteGroup} {db : DBImpl} (hw : s.db.Wrote group db) :
    Tidy { s with db := db } := by
  have hlists : ∀ i, db.version.getLevelFiles i = s.db.version.getLevelFiles i := by
    intro i
    rw [getLevelFiles,hw.levels]
    rfl
  have hunlisted : ∀ path, s.db.Unlisted path → db.Unlisted path :=
    fun path hpath => ⟨hpath.1.trans_le hw.next,by rw [hlists]; exact hpath.2⟩
  refine ⟨h.db.write hw,?_,h.flusher.frame (fun p _ => hunlisted p) (fun p _ => by rw [hw.entries]),
    h.compactor.frame hw.options (fun i => (hlists i).symm ▸ prefix_rfl) (fun p _ => hunlisted p)
      (fun p _ => by rw [hw.entries]),h.apart⟩
  rcases hw.frozen with ⟨-,-,himm,hqueue⟩ | ⟨-,-,himm,wals,hqueue⟩
  · rw [himm,hqueue]
    exact h.frozen
  · rw [himm,hqueue,h.frozen,map_append,append_assoc]
    rfl

lemma Tidy.write (h : s.Tidy) (group : WriteGroup) : Tidy { s with db := s.db.doWriteGroup group } :=
  h.wrote (s.db.wrote_doWriteGroup group)

lemma eraseImmutable_head {db : DBImpl} {m : MemTableRef} {rest : List MemTableRef}
    (h : db.immutableList = [m]++rest) : (db.eraseImmutable m).immutableList = rest := by
  rw [DBImpl.eraseImmutable,h]
  simp

lemma sound_of_version {db db' : DBImpl} {c : CompactionThread} (h : c.Sound db)
    (hoptions : db'.options = db.options) (hlevels : db'.version.levels = db.version.levels)
    (hnext : db.version.nextFileNumber≤db'.version.nextFileNumber)
    (hentries : db'.disk.entriesOf = db.disk.entriesOf) : c.Sound db' := by
  have hlists : ∀ i, db'.version.getLevelFiles i = db.version.getLevelFiles i := by
    intro i
    rw [getLevelFiles,hlevels]
    rfl
  exact h.frame hoptions (fun i => (hlists i).symm ▸ prefix_rfl)
    (fun p _ hp => ⟨hp.1.trans_le hnext,by rw [hlists]; exact hp.2⟩) fun p _ => by rw [hentries]

theorem Tidy.flush (h : s.Tidy) (hstep : s.flushStep = some s') : s'.Tidy := by
  obtain ⟨db,f,c⟩ := s
  obtain ⟨hdb,hfrozen,hf,hc,hapart⟩ := h
  have hsound : ∀ {db' : DBImpl}, db'.options = db.options → db'.version = db.version →
    db'.disk.entriesOf = db.disk.entriesOf →
      c.Sound db' := fun hoptions hversion hentries =>
    sound_of_version hc hoptions (congrArg levels hversion) (congrArg nextFileNumber hversion).ge hentries
  cases flushStep_cases hstep with
  | skip hqueue hempty =>
    rw [hqueue] at hfrozen
    exact ⟨{ hdb with },hfrozen,isEmpty_iff.mp hempty,hsound rfl rfl rfl,fun p hp => by cases hp⟩
  | take hqueue _ =>
    rw [hqueue] at hfrozen
    refine ⟨hdb.advance _,hfrozen,⟨⟨Nat.lt_succ_self _,?_⟩,rfl⟩,
      sound_of_version hc rfl rfl (Nat.le_succ _) rfl,?_⟩
    · intro hlisted
      exact lt_irrefl _ (hdb.placed.of_mem hlisted).2
    · intro p hp hsource
      obtain rfl := Option.some.inj hp
      exact lt_irrefl _ (hc.source_number hdb.placed hsource)
  | create entry path =>
    refine ⟨hdb.calls _,hfrozen,hf,hc.tableOp hdb.placed hf.1 (hapart path rfl) ?_,hapart⟩
    exact fun ht => (hc.target_level ht).2 hf.2
  | build entry path =>
    refine ⟨hdb.calls _,hfrozen,⟨hf,db.disk.entriesOf_complete path entry.sstable⟩,
      hc.tableOp hdb.placed hf.1 (hapart path rfl) ?_,hapart⟩
    exact fun ht => (hc.target_level ht).2 hf.2
  | list entry path =>
    refine ⟨(hdb.calls _).addLevelFile path,hfrozen,trivial,?_,fun p hp => by cases hp⟩
    refine hc.frame rfl (fun i => db.version.getLevelFiles_isPrefix_addLevelFile path.level i path)
      (fun p hp hunlisted => ?_) fun _ _ => rfl
    refine DBImpl.Unlisted.addLevelFile hunlisted ?_
    rintro rfl
    rcases hp with hp | hp
    · exact hapart p rfl hp
    · exact (hc.target_level hp).2 hf.1.2
  | erase entry | dropped entry =>
    exact ⟨hdb.eraseImmutable _,eraseImmutable_head hfrozen,trivial,hsound rfl rfl rfl,fun p hp => by cases hp⟩
  | unlink n wals => exact ⟨hdb.calls _,hfrozen,trivial,hsound rfl rfl rfl,fun p hp => by cases hp⟩
  | drop entry n wals => exact ⟨hdb.calls _,hfrozen,hf,hsound rfl rfl rfl,fun p hp => by cases hp⟩
  | done => exact ⟨hdb,hfrozen,trivial,hc,fun p hp => by cases hp⟩

lemma Tidy.merge (h : s.Tidy) (hstep : s.step (.merge level) = some s') : s'.Tidy := by
  obtain ⟨-,hmergeable,rfl⟩ := merge_eq hstep
  have hbelow : level<s.db.options.maxLevel := by
    simp only [DBImpl.mergeable,Bool.and_eq_true,decide_eq_true_eq] at hmergeable
    exact hmergeable.1.1
  refine ⟨h.db,h.frozen,h.flusher,⟨⟨hbelow,prefix_rfl⟩,fun _ h => h,rfl⟩,?_⟩
  intro path ht hlisted
  exact (h.flusher.target_level ht).1.ne h.db.placed hlisted rfl

theorem Tidy.compact (h : s.Tidy) (hstep : s.compactStep = some s') : s'.Tidy := by
  obtain ⟨db,f,c⟩ := s
  obtain ⟨hdb,hfrozen,hf,hc,hapart⟩ := h
  have hflush : ∀ {newFile : TablePath}, newFile.level ≠ 0 → f.target ≠ some newFile :=
    fun hne ht => hne (hf.target_level ht).2
  cases compactStep_cases hstep with
  | number level sources all =>
    obtain ⟨hmerging,-,hread⟩ := hc
    refine ⟨hdb.advance db.flushQueue,hfrozen,hf.frame (fun p _ hp => ⟨Nat.lt_succ_of_lt hp.1,hp.2⟩) fun _ _ => rfl,
      ⟨⟨hmerging.below,hmerging.listed⟩,?_,⟨Nat.lt_succ_self _,?_⟩,rfl⟩,hapart⟩
    · change mergedOf all = mergedOf (sourceEntries db.disk sources)
      rw [hread]
      simp [sourceEntries]
    · intro hlisted
      exact lt_irrefl _ (hdb.placed.of_mem hlisted).2
  | read level sources path rest all =>
    obtain ⟨hmerging,hrest,hread⟩ := hc
    refine ⟨hdb,hfrozen,hf,⟨hmerging,fun p hp => hrest (by simp [hp]),?_⟩,hapart⟩
    rw [append_assoc]
    exact hread
  | create level sources newFile merged =>
    exact ⟨hdb.calls _,hfrozen,hf.tableOp (hflush (hc.target_level rfl).2),MergedInto.tableOp hc hdb.placed rfl,
      hapart⟩
  | build level sources newFile merged =>
    exact ⟨hdb.calls _,hfrozen,hf.tableOp (hflush (hc.target_level rfl).2),
      ⟨MergedInto.tableOp hc hdb.placed rfl,db.disk.entriesOf_complete newFile merged⟩,hapart⟩
  | discard level sources newFile merged hempty =>
    have hsame : MergedInto (db.calls [.table (.unlink newFile)]) level sources newFile merged :=
      hc.1.tableOp hdb.placed rfl
    refine ⟨hdb.calls _,hfrozen,hf.tableOp (hflush (hc.target_level rfl).2),⟨hsame.toMerging,.inl ?_⟩,hapart⟩
    rw [← hsame.merged]
    exact isEmpty_iff.mp hempty
  | list level sources newFile merged _ =>
    have hne := hflush (hc.target_level rfl).2
    obtain ⟨hinto,hentries⟩ := hc
    have hnew : newFile ∈ (db.version.addLevelFile newFile.level newFile).getLevelFiles (level+1) := by
      rw [getLevelFiles_addLevelFile,if_pos hinto.deeper]
      simp
    refine ⟨(hdb.calls _).addLevelFile newFile,hfrozen,hf.frame ?_ fun _ _ => rfl,
      ⟨⟨hinto.below,?_⟩,.inr ⟨newFile,hnew,?_⟩⟩,hapart⟩
    · intro p ht hp
      refine DBImpl.Unlisted.addLevelFile hp ?_
      rintro rfl
      exact hne ht
    · exact hinto.listed.trans (db.version.getLevelFiles_isPrefix_addLevelFile newFile.level level newFile)
    · exact hentries.trans (congrArg SSTable.entries hinto.merged)
  | retract level sources =>
    refine ⟨(hdb.calls _).removeLevelFiles level sources,hfrozen,hf.frame (fun p _ hp => hp.removeLevelFiles) ?_,?_,
      hapart⟩
    · intro p _
      change (db.disk.exec ((removeRecords db.version.levels level sources).flatMap recordOps)).entriesOf p = _
      rw [DBImpl.entriesOf_records]
    · intro p hp
      exact DBImpl.Unlisted.of_removed hdb.placed (hc.1.listed.subset hp) hp
  | unlink path paths =>
    exact ⟨hdb.calls _,hfrozen,hf.tableOp fun ht => hapart path ht (by simp [CompactionThread.sources]),
      fun p hp => hc p (by simp [hp]),fun p ht hp => hapart p ht (mem_cons_of_mem path hp)⟩
  | done => exact ⟨hdb,hfrozen,hf,trivial,fun p _ hp => by cases hp⟩

theorem Tidy.step (h : s.Tidy) {e : ThreadEvent} (hstep : s.step e = some s') : s'.Tidy := by
  cases e with
  | write group =>
    obtain rfl := Option.some.inj hstep
    exact h.write group
  | flush => exact h.flush hstep
  | merge level => exact h.merge hstep
  | compact => exact h.compact hstep

end Threads

/-- The MANIFEST lists files the way `addLevelFile` records them. -/
def Disk.Named (d : Disk) : Prop := ∀ i, ∀ m ∈ filesAt d.listed i, m.path = ⟨i,m.fileNumber⟩

theorem Threads.Tidy.opened {d : Disk} (h : d.Named) (options : Options) : (Threads.opened options d).Tidy := by
  refine ⟨⟨?_,fun m hm => (by cases hm),Nat.zero_lt_one⟩,rfl,trivial,trivial,fun path hp => by cases hp⟩
  intro i m hm
  change m ∈ filesAt (DBImpl.recover options d).version.levels i at hm
  rw [DBImpl.filesAt_recover] at hm
  rw [h i m hm]
  refine ⟨rfl,(fileNumber_lt_recoverVersion hm).trans_le ?_⟩
  change _ ≤ (if _ then _ else _ : Version).nextFileNumber
  split
  · exact Nat.le_succ _
  · exact le_rfl

/-- However writers, flush thread and compaction thread take turns after `open`. -/
theorem Threads.tidy_run {options : Options} {d : Disk} (h : d.Named) {events : List ThreadEvent} {s : Threads}
    (hrun : Runs.run step (.opened options d) events = some s) : s.Tidy :=
  Runs.invariant (C := fun _ _ => True) (fun _ _ _ htidy _ hstep => htidy.step hstep)
    (Runs.meets_of_forall fun _ _ _ => trivial) hrun (.opened h options)

/-- A MemTable is frozen and its table built while the table before it is merged. -/
theorem Threads.tidy_while_merging : ∃ s, Runs.run step (.opened ⟨1,6⟩ ⟨[],[],⟨none,none,none⟩⟩)
    (.write [[⟨.put,[1],[7]⟩]]::(replicate 6 .flush ++
      [.merge 0,.compact,.write [[⟨.put,[1],[8]⟩]],.flush,.compact,.flush])) = some s ∧ s.Tidy := by
  have hnamed : Disk.Named ⟨[],[],⟨none,none,none⟩⟩ := by
    intro i m hm
    change m ∈ filesAt (replicate 8 []) i at hm
    rw [filesAt_replicate] at hm
    cases hm
  exact (Option.isSome_iff_exists.mp (by decide +kernel)).imp fun s hs => ⟨hs,tidy_run hnamed hs⟩

end TitanKV.Minikv
