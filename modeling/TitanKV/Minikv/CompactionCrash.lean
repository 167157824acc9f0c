import TitanKV.Minikv.CompactionView

/-! A compaction that a crash cuts short. Its source files leave the MANIFEST one record at a
time, oldest first, after the merged file has entered it. -/
namespace TitanKV.Minikv
open Layers CrashPoints List Disk

namespace DBImpl

/-- The MANIFEST lists what the Version lists, and no file twice. -/
structure Listed (db : DBImpl) : Prop where
  placed : db.Placed
  distinct : ∀ i, ((filesAt db.version.levels i).map FileMeta.path).Nodup
  records : ∃ records, db.disk.manifest.active = some (recordChunks records) ∧
    SameFiles (replayRecords records) db.version.levels

section Records
variable {d : Disk} {records : List ManifestRecord}

lemma log_of_active (h : d.manifest.active = some (recordChunks records)) :
    d.listed = replayRecords records := by
  rw [listed,ManifestFiles.log_of_active h,replayLog_recordChunks]

lemma manifest_flushOps (d : Disk) (path : TablePath) (t : SSTable) (wals : List ℕ) :
    (d.exec (flushOps path t wals)).manifest =
      { d.manifest with
        active := d.manifest.active.map (· ++ recordChunks [.add path.level path path.number]) } := by
  have hsplit : flushOps path t wals = [.table (.create path),.table (.complete path t)] ++
      [Edit.add path.level path path.number].flatMap recordOps ++ unlinkOps wals := by
    simp [flushOps]
  rw [hsplit,Disk.exec_append,Disk.exec_unlinkOps,Disk.exec_append,Disk.exec_recordOps]
  rfl

end Records

lemma active_flushNext {db : DBImpl} {entry : FlushEntry} {queue : List FlushEntry}
    (h : db.flushQueue = entry::queue) : db.flushNext.disk.manifest.active =
      if entry.memtable.table.chain = [] then db.disk.manifest.active
      else db.disk.manifest.active.map (· ++ recordChunks
        [.add 0 ⟨0,db.version.nextFileNumber⟩ db.version.nextFileNumber]) := by
  simp only [flushNext,h]
  rw [flushOne]
  split
  · rename_i hempty
    rw [if_pos (isEmpty_iff.mp hempty)]
    change (db.disk.exec (unlinkOps entry.wals)).manifest.active = _
    rw [exec_unlinkOps]
  · rename_i hempty
    rw [if_neg fun hnil => hempty (isEmpty_iff.mpr hnil)]
    change (db.disk.exec (flushOps _ _ _)).manifest.active = _
    rw [manifest_flushOps]

def buildCalls (db : DBImpl) (src : ℕ) : List FsOp :=
  let newFile : TablePath := ⟨src+1,db.version.nextFileNumber⟩
  let merged := mergedTable db.disk (db.version.getLevelFiles src)
  [.table (.create newFile),.table (.complete newFile merged)] ++
    if merged.entries = [] then [.table (.unlink newFile)] else []

def mergeRecords (db : DBImpl) (src : ℕ) : List ManifestRecord :=
  (if (mergedTable db.disk (db.version.getLevelFiles src)).entries = [] then []
    else [.add (src+1) ⟨src+1,db.version.nextFileNumber⟩ db.version.nextFileNumber]) ++
    removeRecords db.version.levels src (db.version.getLevelFiles src)

def mergeCalls (db : DBImpl) (src : ℕ) : List FsOp :=
  if (db.version.getLevelFiles src).isEmpty then []
  else if db.options.maxLevel<src+1 then []
  else db.buildCalls src ++ (db.mergeRecords src).flatMap recordOps ++
    (db.version.getLevelFiles src).map fun path => .table (.unlink path)

lemma disk_mergeLevel (db : DBImpl) (src : ℕ) :
    (db.mergeLevel src).2.disk = db.disk.exec (db.mergeCalls src) := by
  rw [mergeLevel,mergeLevelFiles,mergeCalls]
  split
  · rfl
  · split
    · rfl
    · dsimp only
      rw [buildCalls,mergeRecords]
      split
      · rename_i hempty
        simp only [if_pos (isEmpty_iff.mp hempty),dropOps]
        rfl
      · rename_i hempty
        have hkept : (mergedTable db.disk (db.version.getLevelFiles src)).entries ≠ [] :=
          fun hnil => hempty (isEmpty_iff.mpr hnil)
        simp [if_neg hkept,mergeOps]

lemma active_mergeLevel {db : DBImpl} {src : ℕ} (hsrc : db.version.getLevelFiles src ≠ [])
    (hmax : src<db.options.maxLevel) : (db.mergeLevel src).2.disk.manifest.active =
      db.disk.manifest.active.map (· ++ recordChunks (db.mergeRecords src)) := by
  have hbuild : (db.disk.exec (db.buildCalls src)).manifest = db.disk.manifest := by
    rw [buildCalls]
    split <;> rfl
  rw [disk_mergeLevel,mergeCalls,if_neg fun hnil => hsrc (isEmpty_iff.mp hnil),if_neg (by omega),Disk.exec_append,
    Disk.exec_unlinkTables,Disk.exec_append,Disk.exec_recordOps,hbuild]

lemma removeRecords_all (db : DBImpl) (src : ℕ) :
    removeRecords db.version.levels src (db.version.getLevelFiles src) =
      (filesAt db.version.levels src).map fun m => .del src m.path m.fileNumber := by
  rw [removeRecords,filter_eq_self.mpr]
  intro m hm
  exact decide_eq_true (mem_map_of_mem hm)

lemma filter_not_any_take {α β : Type*} [DecidableEq β] {f : α → β} {l : List α} (h : (l.map f).Nodup)
    (j : ℕ) : l.filter (fun a => !(l.take j).any fun x => f a = f x) = l.drop j := by
  have hsplit := take_append_drop j l
  rw [← hsplit,map_append,nodup_append] at h
  have hfront : (l.take j).filter (fun a => !(l.take j).any fun x => f a = f x) = [] := by
    rw [filter_eq_nil_iff]
    intro a ha
    simpa using ⟨a,ha,rfl⟩
  have hback : (l.drop j).filter (fun a => !(l.take j).any fun x => f a = f x) = l.drop j := by
    rw [filter_eq_self]
    intro a ha
    simp only [Bool.not_eq_true',any_eq_false,decide_eq_true_eq]
    intro x hx heq
    exact h.2.2 (f x) (mem_map_of_mem hx) (f a) (mem_map_of_mem ha) heq.symm
  calc l.filter (fun a => !(l.take j).any fun x => f a = f x)
      = (l.take j ++ l.drop j).filter (fun a => !(l.take j).any fun x => f a = f x) := by rw [hsplit]
    _ = l.drop j := by rw [filter_append,hfront,hback,nil_append]

namespace Listed
variable {db : DBImpl}

theorem fresh (options : Options) : (DBImpl.fresh options).Listed := by
  have hfiles : ∀ i, filesAt (DBImpl.fresh options).version.levels i = [] := filesAt_replicate 8
  refine ⟨(ByAge.fresh options).placed,?_,[],rfl,?_⟩
  · intro i
    rw [hfiles]
    exact nodup_nil
  · intro i
    rw [hfiles]
    exact filesAt_replicate 8 i

theorem write (h : db.Listed) (group : WriteGroup) : (db.writeGroup group).Listed := by
  rw [writeGroup]
  split
  · exact h
  · refine ⟨h.placed,h.distinct,?_⟩
    obtain ⟨records,hactive,hsame⟩ := h.records
    refine ⟨records,?_,hsame⟩
    rw [← hactive,appendOps]
    split <;> rfl

theorem freeze (h : db.Listed) : db.freeze.Listed := by
  refine ⟨?_,h.distinct,h.records⟩
  intro i m hm
  exact (h.placed i m hm).imp_right fun hn => hn.trans (Nat.lt_succ_self _)

lemma not_mem_next (h : db.Placed) (level i : ℕ) :
    (⟨level,db.version.nextFileNumber⟩ : TablePath) ∉ (filesAt db.version.levels i).map FileMeta.path := by
  intro hmem
  obtain ⟨m,hm,heq⟩ := mem_map.mp hmem
  have hlt := (h i m hm).2
  rw [heq] at hlt
  exact lt_irrefl _ hlt

lemma nodup_push (h : db.Listed) (level no i : ℕ) :
    ((filesAt db.version.levels i ++ [(⟨⟨level,db.version.nextFileNumber⟩,no⟩ : SSTableMeta)]).map
      FileMeta.path).Nodup := by
  rw [map_append,nodup_append]
  refine ⟨h.distinct i,nodup_singleton _,?_⟩
  rintro p hp q hq rfl
  rw [map_singleton,mem_singleton] at hq
  rw [hq] at hp
  exact not_mem_next h.placed level i hp

theorem flush (h : db.Listed) : db.flushNext.Listed := by
  cases hq : db.flushQueue with
  | nil => rwa [flushNext_nil hq]
  | cons entry queue =>
    have hf := flushNext_cons hq
    obtain ⟨records,hactive,hsame⟩ := h.records
    refine ⟨hf.placed h.placed,?_,?_⟩
    · intro i
      rw [hf.files]
      split
      · exact h.nodup_push _ _ i
      · exact h.distinct i
    · rw [active_flushNext hq,hactive]
      by_cases hchain : entry.memtable.table.chain = []
      · refine ⟨records,if_pos hchain,?_⟩
        intro i
        rw [hf.files,if_neg fun hz => hz.2 hchain]
        exact hsame i
      · refine ⟨records++[.add 0 ⟨0,db.version.nextFileNumber⟩ db.version.nextFileNumber],?_,?_⟩
        · rw [if_neg hchain]
          exact congrArg some flatMap_append.symm
        · intro i
          rw [hf.files,replayRecords_append,foldl_cons,foldl_nil,applyRecord,filesAt_pushFile,
            hsame i]
          simp only [ne_eq,hchain,not_false_eq_true,and_true]

/-- Whichever records of a merge are complete, its sources leave from the oldest on. -/
lemma filesAt_foldl_mergeRecords (h : db.Listed) {src : ℕ}
    (hm : Merged db src (db.version.getLevelFiles src) (db.mergeLevel src).2) {ls : Levels}
    (hsame : SameFiles ls db.version.levels) {p q : List ManifestRecord} (hpq : db.mergeRecords src = p++q)
    (hp : p ≠ []) :
    ∃ j, (q = [] → (filesAt db.version.levels src).length = j) ∧ ∀ i, filesAt (p.foldl applyRecord ls) i =
      if src = i then (filesAt db.version.levels src).drop j
        else filesAt (db.mergeLevel src).2.version.levels i := by
  -- the deletions among the complete records are those of the first files
  have hdels : ∀ p : List ManifestRecord,
    (filesAt db.version.levels src).map (fun m => Edit.del src m.path m.fileNumber) = p++q →
      ∀ (ls : Levels) (i : ℕ), filesAt ls src = filesAt db.version.levels src → filesAt (p.foldl applyRecord ls) i =
        if src = i then (filesAt db.version.levels src).drop p.length else filesAt ls i := by
    intro p hpq ls i hls
    have hp : p = ((filesAt db.version.levels src).take p.length).map
        fun m => Edit.del src m.path m.fileNumber := by
      rw [map_take,hpq,take_left]
    rw [hp,filesAt_foldl_del]
    split
    · rename_i hi
      rw [← hi,hls,filter_not_any_take (h.distinct src)]
      simp
    · rfl
  have hall : ∀ p : List ManifestRecord,
    (filesAt db.version.levels src).map (fun m => Edit.del src m.path m.fileNumber) = p++q →
      q = [] → (filesAt db.version.levels src).length = p.length := by
    rintro p hpq rfl
    simpa using congrArg length hpq
  rw [mergeRecords,removeRecords_all] at hpq
  by_cases hkept : (mergedTable db.disk (db.version.getLevelFiles src)).entries = []
  · rw [if_pos hkept,nil_append] at hpq
    refine ⟨p.length,hall p hpq,fun i => ?_⟩
    rw [hdels p hpq _ i (hsame src),hm.files,hsame]
    simp only [hkept,ne_eq,not_true_eq_false,and_false,if_false]
    split <;> rfl
  · rw [if_neg hkept,singleton_append] at hpq
    obtain ⟨r,p,rfl⟩ := exists_cons_of_ne_nil hp
    obtain ⟨rfl,hdel⟩ := cons_eq_cons.mp hpq
    have hat :
      filesAt (applyRecord ls (.add (src+1) ⟨src+1,db.version.nextFileNumber⟩ db.version.nextFileNumber)) src =
        filesAt db.version.levels src := by
      rw [applyRecord,filesAt_pushFile,if_neg (Nat.succ_ne_self src)]
      exact hsame src
    refine ⟨p.length,hall p hdel,fun i => ?_⟩
    rw [foldl_cons,hdels p hdel _ i hat,applyRecord,filesAt_pushFile,hsame,hm.files]
    simp only [ne_eq,hkept,not_false_eq_true,and_true]
    split <;> rfl

theorem compact (h : db.Listed) (src : ℕ) : (db.mergeLevel src).2.Listed := by
  rcases (mergeLevelFiles_cases db src (db.version.getLevelFiles src)).2 with ⟨-,hid⟩ | ⟨hsrc,hmax,hm⟩
  · rwa [mergeLevel,hid]
  · obtain ⟨records,hactive,hsame⟩ := h.records
    rw [mergeLevel]
    refine ⟨hm.placed h.placed,?_,?_⟩
    · intro i
      rw [hm.files]
      split
      · exact ((h.distinct i).sublist (filter_sublist.map _))
      · split
        · exact h.nodup_push _ _ i
        · exact h.distinct i
    · have hne : db.mergeRecords src ≠ [] := by
        rw [mergeRecords,removeRecords_all]
        exact append_ne_nil_of_right_ne_nil _ (by simpa [Version.getLevelFiles] using hsrc)
      obtain ⟨j,hj,hfiles⟩ := h.filesAt_foldl_mergeRecords hm hsame (append_nil _).symm hne
      rw [← mergeLevel,active_mergeLevel hsrc hmax,hactive]
      refine ⟨records ++ db.mergeRecords src,congrArg some flatMap_append.symm,?_⟩
      intro i
      rw [replayRecords_append,hfiles,← hj rfl,drop_length]
      split
      · rename_i hi
        exact hi ▸ hm.files_src.symm
      · rfl

theorem run (h : db.Listed) {events : List Event} (hsession : ∀ e ∈ events, e.inSession = true) :
    (db.run events).Listed :=
  run_of_session (fun _ group h => h.write group) (fun _ h => h.freeze) (fun _ h => h.flush)
    (fun _ level h => h.compact level) h hsession

end Listed

lemma along_records {P : Disk → Prop} {d : Disk} {rs : List ManifestRecord}
    (hactive : d.manifest.active = some (recordChunks rs)) {records : List ManifestRecord}
    (h : ∀ p q, records = p++q → ∀ d' : Disk, d'.tables = d.tables → d'.wals = d.wals →
      d'.listed = replayRecords (rs++p) → P d') :
    Along apply P d (records.flatMap recordOps) := by
  have hnow : P d := h [] records rfl d rfl rfl (by rw [append_nil]; exact log_of_active hactive)
  induction records generalizing d rs with
  | nil => exact hnow
  | cons r records ih =>
    obtain ⟨d₁,hd₁⟩ : ∃ d₁, d₁ = d.apply (.manifest (.write (.header r))) := ⟨_,rfl⟩
    obtain ⟨d₂,hd₂⟩ : ∃ d₂, d₂ = d₁.apply (.manifest (.write (.payload r))) := ⟨_,rfl⟩
    have hactive₁ : d₁.manifest.active = some (recordChunks rs ++ [.header r]) := by
      rw [hd₁]
      simp [apply,ManifestOp.apply,hactive]
    have hactive₂ : d₂.manifest.active = some (recordChunks (rs++[r])) := by
      rw [hd₂]
      simp [apply,ManifestOp.apply,hactive₁,recordChunks]
    have htables₁ : d₁.tables = d.tables := by rw [hd₁]; rfl
    have htables₂ : d₂.tables = d.tables := by rw [hd₂]; exact htables₁
    have hwals₁ : d₁.wals = d.wals := by rw [hd₁]; rfl
    have hwals₂ : d₂.wals = d.wals := by rw [hd₂]; exact hwals₁
    have hrest : ∀ p q, records = p++q → ∀ d' : Disk, d'.tables = d₂.tables → d'.wals = d₂.wals →
        d'.listed = replayRecords (rs++[r]++p) → P d' := by
      intro p q hpq d' ht hw hl
      refine h (r::p) q (by rw [hpq,cons_append]) d' (ht.trans htables₂) (hw.trans hwals₂) ?_
      rw [hl,append_assoc]
      rfl
    have hbetween : P d₁ := by
      refine h [] (r::records) rfl d₁ htables₁ hwals₁ ?_
      rw [append_nil]
      exact listed_of_active hactive₁ rfl
    refine ⟨hnow,by rw [← hd₁]; exact hbetween,?_⟩
    rw [← hd₁,← hd₂]
    exact ih hactive₂ hrest (hrest [] records rfl d₂ rfl rfl (by rw [append_nil]; exact log_of_active hactive₂))

/-- The database that a replay of the MANIFEST gives. -/
def replayed (db : DBImpl) (d : Disk) : DBImpl :=
  { db with disk := d, version := { db.version with levels := d.listed } }

def crashedMerge (db : DBImpl) (src calls : ℕ) : DBImpl :=
  db.replayed (db.disk.exec ((db.mergeCalls src).take calls))

/-- Nothing of the merge is listed. -/
structure Untouched (db : DBImpl) (d : Disk) : Prop where
  files : ∀ i, filesAt d.listed i = filesAt db.version.levels i
  entries : ∀ i, ∀ m ∈ filesAt db.version.levels i, d.entriesOf m.path = db.disk.entriesOf m.path

/-- Some of the oldest sources have left their level, and the other levels are as the merge
leaves them. -/
structure Retiring (db : DBImpl) (src : ℕ) (d : Disk) : Prop where
  source : ∃ j, filesAt d.listed src = (filesAt db.version.levels src).drop j
  sourceEntries : ∀ m ∈ filesAt d.listed src, d.entriesOf m.path = db.disk.entriesOf m.path
  others : ∀ i, i ≠ src → filesAt d.listed i = filesAt (db.mergeLevel src).2.version.levels i
  otherEntries : ∀ i, i ≠ src → ∀ m ∈ filesAt d.listed i,
    d.entriesOf m.path = (db.mergeLevel src).2.disk.entriesOf m.path

section Views
variable {db : DBImpl} {src : ℕ} {d : Disk}

lemma Untouched.view (h : Untouched db d) (k : Bytes) : (db.replayed d).view k = db.view k := by
  have hruns : ∀ i, (db.replayed d).runsAt i = db.runsAt i := by
    intro i
    change (filesAt d.listed i).map (fun m => d.entriesOf m.path) = _
    rw [h.files]
    exact map_congr_left (h.entries i)
  refine congrArg present (firstEntry_congr fun i _ => ?_)
  rw [levelEntry,hruns,levelEntry]

/-- A key that the remaining sources know reads as before the merge, any other as after it. -/
lemma Retiring.view (h : Retiring db src d) (hp : db.Placed) (hmax : src<db.options.maxLevel)
    (hm : Merged db src (db.version.getLevelFiles src) (db.mergeLevel src).2) (k : Bytes) :
    (db.replayed d).view k = db.view k ∨ (db.replayed d).view k = (db.mergeLevel src).2.view k := by
  obtain ⟨j,hj⟩ := h.source
  have hsrc : (db.replayed d).runsAt src = (db.runsAt src).drop j := by
    change (filesAt d.listed src).map (fun m => d.entriesOf m.path) = _
    rw [map_congr_left h.sourceEntries,hj,map_drop]
    rfl
  have hothers : ∀ i, i ≠ src → (db.replayed d).runsAt i = (db.mergeLevel src).2.runsAt i := by
    intro i hi
    change (filesAt d.listed i).map (fun m => d.entriesOf m.path) = _
    rw [map_congr_left (h.otherEntries i hi),h.others i hi]
    rfl
  cases hentry : (db.replayed d).levelEntry k src with
  | some e =>
    refine .inl ?_
    have hbefore : db.levelEntry k src = some e := by
      rw [levelEntry,hsrc] at hentry
      rw [levelEntry,← take_append_drop j (db.runsAt src),map_append,overlay_append,hentry]
      rfl
    have hshallow : (db.replayed d).firstEntry (range src) k = db.firstEntry (range src) k := by
      apply firstEntry_congr
      intro i hi
      have hlt := mem_range.mp hi
      rw [levelEntry,hothers i (by omega),hm.runsAt hp,levelEntry]
      split
      · rw [Function.update_of_ne (by omega)]
      · rw [Function.update_of_ne (by omega),Function.update_of_ne (by omega)]
    rw [@view_eq src (db.replayed d) hmax k,view_eq hmax,hshallow,hentry,hbefore]
    rfl
  | none =>
    refine .inr ?_
    have hoptions : (db.mergeLevel src).2.options = (db.replayed d).options := hm.options
    rw [DBImpl.view,DBImpl.view,hoptions]
    refine congrArg present (firstEntry_congr fun i _ => ?_)
    by_cases hi : i = src
    · rw [hi,hentry,levelEntry,runsAt,hm.files_src]
      rfl
    · rw [levelEntry,hothers i hi,levelEntry]

end Views

section Crash
variable {db : DBImpl} {src : ℕ}

/-- What the tables hold once the merged one is built; an empty one is gone again. -/
def Built (db : DBImpl) (src : ℕ) (d : Disk) : Prop := ∀ path, d.entriesOf path =
  if path = ⟨src+1,db.version.nextFileNumber⟩ then
    (mergedTable db.disk (db.version.getLevelFiles src)).entries
  else db.disk.entriesOf path

lemma Built.of_tables {d d' : Disk} (h : Built db src d) (ht : d'.tables = d.tables) : Built db src d' := by
  intro path
  rw [← h path,entriesOf,entriesOf,reader,reader,ht]

lemma mem_buildCalls {op : FsOp} (h : op ∈ db.buildCalls src) :
    ∃ t : TableOp, op = .table t ∧ t.path = ⟨src+1,db.version.nextFileNumber⟩ := by
  rcases mem_append.mp h with h | h
  · rcases mem_pair.mp h with rfl | rfl
    · exact ⟨_,rfl,rfl⟩
    · exact ⟨_,rfl,rfl⟩
  · split at h
    · exact ⟨_,mem_singleton.mp h,rfl⟩
    · cases h

lemma along_buildCalls (h : db.Listed) (src : ℕ) :
    Along apply (Untouched db) db.disk (db.buildCalls src) ∧
      (db.disk.exec (db.buildCalls src)).manifest = db.disk.manifest ∧
      Built db src (db.disk.exec (db.buildCalls src)) := by
  obtain ⟨records,hactive,hsame⟩ := h.records
  obtain ⟨newFile,hnew⟩ : ∃ newFile : TablePath, newFile = ⟨src+1,db.version.nextFileNumber⟩ := ⟨_,rfl⟩
  obtain ⟨halong,hmanifest,hentries⟩ := @along_of_kept Disk FsOp apply db.disk
    (fun d => d.manifest = db.disk.manifest ∧
      ∀ path, path ≠ newFile → d.entriesOf path = db.disk.entriesOf path) (db.buildCalls src)
    (by
      rintro d op hop ⟨hmanifest,hentries⟩
      obtain ⟨t,rfl,ht⟩ := mem_buildCalls hop
      rw [← hnew] at ht
      refine ⟨hmanifest,fun path hpath => ?_⟩
      rw [d.entriesOf_tableOp t (ht ▸ hpath),hentries path hpath])
    ⟨rfl,fun _ _ => rfl⟩
  refine ⟨halong.imp ?_,hmanifest,?_⟩
  · rintro d ⟨hmanifest,hentries⟩
    refine ⟨fun i => ?_,fun i m hm => hentries _ ?_⟩
    · rw [log_of_active (hmanifest ▸ hactive)]
      exact hsame i
    · intro heq
      exact Listed.not_mem_next h.placed _ i (mem_map.mpr ⟨m,hm,heq.trans hnew⟩)
  · intro path
    by_cases hpath : path = newFile
    · rw [if_pos (hpath.trans hnew),buildCalls,← hnew,hpath,Disk.exec_append]
      split
      · rename_i hempty
        rw [hempty]
        simp [Disk.entriesOf,Disk.reader,Disk.exec,CrashPoints.exec,Disk.apply,TableOp.apply,
          Directory.get_unlink]
      · simp [Disk.entriesOf,Disk.reader,Disk.exec,CrashPoints.exec,Disk.apply,TableOp.apply,
          Directory.get_set]
    · rw [if_neg (hnew ▸ hpath)]
      exact hentries path hpath

section Doing
variable (h : db.Listed) (hm : Merged db src (db.version.getLevelFiles src) (db.mergeLevel src).2)
include h hm

lemma path_not_mem_sources {i : ℕ} (hi : i ≠ src) {m : SSTableMeta}
    (hmem : m ∈ filesAt (db.mergeLevel src).2.version.levels i) :
    m.path ∉ db.version.getLevelFiles src := by
  intro hsrc
  obtain ⟨x,hx,heq⟩ := mem_map.mp hsrc
  have hlevel := (hm.placed h.placed i m hmem).1
  rw [← heq,(h.placed src x hx).1] at hlevel
  exact hi hlevel.symm

lemma retiring_of_built {d : Disk} (hbuilt : Built db src d)
    (hsource : ∃ j, filesAt d.listed src = (filesAt db.version.levels src).drop j)
    (hothers : ∀ i, i ≠ src → filesAt d.listed i = filesAt (db.mergeLevel src).2.version.levels i) :
    Retiring db src d := by
  refine ⟨hsource,?_,hothers,?_⟩
  · intro m hmem
    obtain ⟨j,hj⟩ := hsource
    rw [hj] at hmem
    have hlisted := mem_of_mem_drop hmem
    rw [hbuilt,if_neg]
    intro heq
    exact Listed.not_mem_next h.placed _ src (mem_map.mpr ⟨m,hlisted,heq⟩)
  · intro i hi m hmem
    rw [hothers i hi] at hmem
    rw [hbuilt,hm.entries,if_neg (path_not_mem_sources h hm hi hmem)]

lemma retiring_of_records {rs p q : List ManifestRecord} (hsame : SameFiles (replayRecords rs) db.version.levels)
    (hpq : db.mergeRecords src = p++q) {d : Disk} (hbuilt : Built db src d)
    (hlisted : d.listed = replayRecords (rs++p)) : Untouched db d ∨ Retiring db src d := by
  by_cases hp : p = []
  · refine .inl ⟨fun i => by rw [hlisted,hp,append_nil]; exact hsame i,fun i m hmem => ?_⟩
    rw [hbuilt,if_neg]
    intro heq
    exact Listed.not_mem_next h.placed _ i (mem_map.mpr ⟨m,hmem,heq⟩)
  · obtain ⟨j,-,hfiles⟩ := h.filesAt_foldl_mergeRecords hm hsame hpq hp
    rw [← replayRecords_append,← hlisted] at hfiles
    refine .inr (retiring_of_built h hm hbuilt ⟨j,(hfiles src).trans (if_pos rfl)⟩ fun i hi => ?_)
    rw [hfiles,if_neg (Ne.symm hi)]

/-- Wherever a crash cuts the merge short, it has not begun or its sources are retiring. -/
lemma along_mergeCalls (hsrc : db.version.getLevelFiles src ≠ []) (hmax : src<db.options.maxLevel) :
    Along Disk.apply (fun d => Untouched db d ∨ Retiring db src d) db.disk (db.mergeCalls src) := by
  obtain ⟨hbuild,hmanifest,hbuilt⟩ := along_buildCalls h src
  obtain ⟨rs,hactive,hsame⟩ := h.records
  obtain ⟨d₁,hd₁⟩ : ∃ d₁, d₁ = db.disk.exec (db.buildCalls src) := ⟨_,rfl⟩
  obtain ⟨d₂,hd₂⟩ : ∃ d₂, d₂ = d₁.exec ((db.mergeRecords src).flatMap recordOps) := ⟨_,rfl⟩
  rw [← hd₁] at hmanifest hbuilt
  have hactive₁ : d₁.manifest.active = some (recordChunks rs) := by rw [hmanifest,hactive]
  have hrecords : Along apply (fun d => Untouched db d ∨ Retiring db src d) d₁
      ((db.mergeRecords src).flatMap recordOps) := by
    apply along_records hactive₁
    intro p q hpq d ht _ hl
    exact retiring_of_records h hm hsame hpq (hbuilt.of_tables ht) hl
  have hunlink : Along apply (Retiring db src) d₂
      ((db.version.getLevelFiles src).map fun path => .table (.unlink path)) := by
    have hend : (db.mergeLevel src).2.disk =
        d₂.exec ((db.version.getLevelFiles src).map fun path => .table (.unlink path)) := by
      rw [disk_mergeLevel,mergeCalls,if_neg fun hnil => hsrc (isEmpty_iff.mp hnil),if_neg (by omega),
        Disk.exec_append,Disk.exec_append,← hd₁,← hd₂]
    obtain ⟨rs',hactive',hsame'⟩ := (h.compact src).records
    have hactive₂ : d₂.manifest.active = some (recordChunks rs') := by
      rw [← hactive',hend,exec_unlinkTables]
    have hbuilt₂ : Built db src d₂ := by
      apply hbuilt.of_tables
      rw [hd₂,exec_recordOps]
    refine (along_of_kept (fun d => d.manifest = d₂.manifest ∧
      ∀ path, path ∉ db.version.getLevelFiles src → d.entriesOf path = d₂.entriesOf path) _ ?_
      ⟨rfl,fun _ _ => rfl⟩).1.imp ?_
    · rintro d op hop ⟨hd,hentries⟩
      obtain ⟨path,hpath,rfl⟩ := mem_map.mp hop
      refine ⟨hd,fun p hp => ?_⟩
      have hne : p ≠ path := by
        rintro rfl
        exact hp hpath
      rw [d.entriesOf_tableOp (.unlink path) hne,hentries p hp]
    · rintro d ⟨hd,hentries⟩
      have hfiles : ∀ i, filesAt d.listed i = filesAt (db.mergeLevel src).2.version.levels i := by
        rw [log_of_active (hd ▸ hactive₂)]
        exact hsame'
      have hnil : filesAt d.listed src = [] := (hfiles src).trans hm.files_src
      refine ⟨⟨(filesAt db.version.levels src).length,by rw [hnil,drop_length]⟩,?_,fun i _ => hfiles i,?_⟩
      · rw [hnil]
        intro m hmem
        cases hmem
      · intro i hi m hmem
        rw [hfiles] at hmem
        have hpath := path_not_mem_sources h hm hi hmem
        rw [hentries _ hpath,hbuilt₂,hm.entries,if_neg hpath]
  rw [mergeCalls,if_neg fun hnil => hsrc (isEmpty_iff.mp hnil),if_neg (by omega)]
  refine ((hbuild.imp fun _ hd => .inl hd).append (by rw [← Disk.exec,← hd₁]; exact hrecords)).append ?_
  rw [← Disk.exec,Disk.exec_append,← hd₁,← hd₂]
  exact hunlink.imp fun _ hd => .inr hd

end Doing

/-- A session's compaction that crashes anywhere leaves every key, in the files that a replay of
the MANIFEST lists, with what it had before or with what it has afterwards. -/
theorem view_crashedMerge (options : Options) {events : List Event}
    (hsession : ∀ e ∈ events, e.inSession = true) (src calls : ℕ) (k : Bytes) :
    (((fresh options).run events).crashedMerge src calls).view k = ((fresh options).run events).view k ∨
      (((fresh options).run events).crashedMerge src calls).view k =
        (((fresh options).run events).mergeLevel src).2.view k := by
  have h : ((fresh options).run events).Listed := (Listed.fresh options).run hsession
  generalize (fresh options).run events = db at h ⊢
  rcases (mergeLevelFiles_cases db src (db.version.getLevelFiles src)).2 with ⟨hnothing,-⟩ | ⟨hsrc,hmax,hm⟩
  · have hnone : db.mergeCalls src = [] := by
      rw [mergeCalls]
      rcases hnothing with hnil | hdeep
      · rw [hnil]
        rfl
      · rw [if_pos (Nat.lt_succ_of_le hdeep)]
        split <;> rfl
    obtain ⟨records,hactive,hsame⟩ := h.records
    rw [crashedMerge,hnone,take_nil]
    refine .inl (Untouched.view ⟨fun i => ?_,fun _ _ _ => rfl⟩ k)
    rw [log_of_active hactive]
    exact hsame i
  · rcases (along_mergeCalls h hm hsrc hmax).take calls with hu | hr
    · exact .inl (hu.view k)
    · exact hr.view h.placed hmax hm k

/-- A value on level 0 and its deletion in the next file, merged over an older value on level 1;
the crash comes after the first of the two files has left the MANIFEST. -/
theorem view_crashedMerge_of_deletion :
    (((fresh ⟨100,6⟩).run [.write [[⟨.put,[1],[2]⟩]],.freeze,.flush,.compact 0,.write [[⟨.put,[1],[3]⟩]],
      .freeze,.flush,.write [[⟨.delete,[1],[]⟩]],.freeze,.flush]).crashedMerge 0 5).view [1] =
      ((fresh ⟨100,6⟩).run [.write [[⟨.put,[1],[2]⟩]],.freeze,.flush,.compact 0,.write [[⟨.put,[1],[3]⟩]],
        .freeze,.flush,.write [[⟨.delete,[1],[]⟩]],.freeze,.flush]).view [1] ∨
    (((fresh ⟨100,6⟩).run [.write [[⟨.put,[1],[2]⟩]],.freeze,.flush,.compact 0,.write [[⟨.put,[1],[3]⟩]],
      .freeze,.flush,.write [[⟨.delete,[1],[]⟩]],.freeze,.flush]).crashedMerge 0 5).view [1] =
      (((fresh ⟨100,6⟩).run [.write [[⟨.put,[1],[2]⟩]],.freeze,.flush,.compact 0,.write [[⟨.put,[1],[3]⟩]],
        .freeze,.flush,.write [[⟨.delete,[1],[]⟩]],.freeze,.flush]).mergeLevel 0).2.view [1] :=
  view_crashedMerge ⟨100,6⟩ (by decide) 0 5 [1]

end Crash
end DBImpl
end TitanKV.Minikv
