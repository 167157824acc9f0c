import TitanKV.Minikv.CompactionFaults
import TitanKV.Minikv.ManifestLog
import TitanKV.Minikv.SSTableLookup

/-! Where no call fails, the store of bytes does what the database object over whole tables and
records does. -/
namespace TitanKV.Minikv
open List Entry

namespace Store

/-- The file is a whole table of these entries, every block under its last key. -/
def HoldsTable (codec : Codec) (file : Option Bytes) (es : List Entry) : Prop :=
  ∃ r blocks, SSTableReader.openFile true file [] = some r ∧ r.Over codec blocks ∧
    placedEntries blocks = es.map bytes

/-- The store holds the bytes of what the database object holds. A file that has no reader there
cannot be opened here. -/
structure Represents (codec : Codec) (s : Store) (db : DBImpl) : Prop where
  maxLevel : s.maxLevel = db.options.maxLevel
  immutableList : s.immutableList = db.immutableList
  levels : s.levels = LevelLists.map (tablePath s.dbPath) db.version.levels
  nextFileNumber : s.nextFileNumber = db.version.nextFileNumber
  wals : s.wals = db.disk.wals
  readable : ∀ p t, db.disk.reader p = some t → HoldsTable codec (s.files.get (tablePath s.dbPath p)) t.entries
  filters : ∀ p t, db.disk.reader p = some t → ∀ e ∈ t.entries, s.FilterPasses (tablePath s.dbPath p) e.key.userKey
  unreadable : ∀ p, db.disk.reader p = none →
    SSTableReader.openFile true (s.files.get (tablePath s.dbPath p)) [] = none
  opened : s.manifest.opened = true
  log : ∃ records : List ManifestRecord, (∀ r ∈ records, (r.map (tablePath s.dbPath)).Fits) ∧
    db.disk.manifest.active = some (recordChunks records) ∧
    s.manifest.content = (recordChunks records).flatMap (Chunk.bytes s.dbPath)

variable {codec : Codec} {s : Store} {db : DBImpl} {faults : WriteFaults}

/-- No call fails, for the filter either. -/
structure AllDone (faults : WriteFaults) : Prop extends AllWritten faults where
  sidecarOpened : faults.sidecarOpened = true
  sidecarWrite : faults.sidecarWrite = .full

lemma holdsTable_build (blockSize : ℕ) (compression : CompressionType) {outcomes : List WriteOutcome}
    {es : List Entry} (hfull : ∀ o ∈ outcomes, o = .full) (hfit : totalSize (es.map bytes)<2^32) :
    HoldsTable codec (some (((SSTableBuilder.init blockSize compression true outcomes).addAll codec
      (es.map bytes)).finish codec).2.file.content) es := by
  obtain ⟨-,r,hopen,hover,hentries⟩ :=
    SSTableBuilder.exists_over codec blockSize compression hfull (.of_totalSize hfit blockSize)
  exact ⟨r,_,hopen,hover,hentries⟩

/-- Both replay to the same tables. -/
theorem Represents.manifestLevels (h : Represents codec s db) :
    manifestLevels s.manifest.content = LevelLists.map (tablePath s.dbPath) db.disk.listed := by
  obtain ⟨records,hfit,hactive,hcontent⟩ := h.log
  have hlog : db.disk.manifest.log = recordChunks records ++ [] := by
    rw [ManifestFiles.log_of_active hactive,append_nil]
  have hchunks := manifestLevels_chunks s.dbPath hfit (.inl rfl)
  rw [← hlog] at hchunks
  rw [hcontent,Disk.listed,← hchunks,hlog,append_nil]

lemma Represents.log_append (h : Represents codec s db) {f : OutFile} {active : Option (List Chunk)}
    {more : List ManifestRecord} (hfit : ∀ r ∈ more, (r.map (tablePath s.dbPath)).Fits)
    (hactive : active = db.disk.manifest.active.map (· ++ recordChunks more))
    (hcontent : f.content = s.manifest.content ++ (more.map (Edit.map (tablePath s.dbPath))).flatMap
      manifestRecord) :
    ∃ records : List ManifestRecord, (∀ r ∈ records, (r.map (tablePath s.dbPath)).Fits) ∧
      active = some (recordChunks records) ∧
      f.content = (recordChunks records).flatMap (Chunk.bytes s.dbPath) := by
  obtain ⟨records,hfits,hlog,hbytes⟩ := h.log
  have happend : recordChunks (records++more) = recordChunks records ++ recordChunks more :=
    flatMap_append
  refine ⟨records++more,?_,?_,?_⟩
  · intro r hr
    rcases mem_append.mp hr with hr | hr
    · exact hfits r hr
    · exact hfit r hr
  · rw [hactive,hlog,happend]
    rfl
  · rw [hcontent,hbytes,happend,flatMap_append,flatMap_recordChunks s.dbPath more]

lemma Represents.drop (h : Represents codec s db) (flushing : MemTableRef) (wals : List ℕ) :
    Represents codec ((s.unlinkWals wals).eraseImmutable flushing)
      ({ db with disk := db.disk.exec (unlinkOps wals) }.eraseImmutable flushing) := by
  rw [Disk.exec_unlinkOps]
  refine { h with immutableList := ?_, wals := ?_ }
  · exact congrArg (List.eraseP _) h.immutableList
  · exact congrArg (wals.foldl Directory.unlink) h.wals

lemma get_tableFiles_tablePath (hf : faults.opened = true) (p : TablePath) (added : List KeyValue)
    (content : Bytes) (p' : TablePath) :
    (s.tableFiles faults (tablePath s.dbPath p) added content).get (tablePath s.dbPath p') =
      if p' = p then some content else s.files.get (tablePath s.dbPath p') := by
  have hside : tablePath s.dbPath p' ≠ sidecarPath (tablePath s.dbPath p) := tablePath_ne_sidecarPath _ _ _
  rw [get_tableFiles,if_neg (fun hs => hside hs.2)]
  by_cases hp : p' = p
  · rw [if_pos hp,if_pos ⟨hf,by rw [hp]⟩]
  · rw [if_neg hp,if_neg]
    exact fun hs => hp (tablePath_inj.mp hs.2).2

/-- Some paths get a new file on both sides, or lose theirs. -/
lemma Represents.changed (h : Represents codec s db) {c : TablePath → Prop} [DecidablePred c]
    {files : Directory Bytes Bytes} {tables : Directory TablePath (Option SSTable)} {file : Option Bytes}
    {table : Option SSTable}
    (hget : ∀ p, files.get (tablePath s.dbPath p) = if c p then file else s.files.get (tablePath s.dbPath p))
    (hside : ∀ p, ¬c p → files.get (sidecarPath (tablePath s.dbPath p)) =
      s.files.get (sidecarPath (tablePath s.dbPath p)))
    (hreader : ∀ p, Disk.reader { db.disk with tables := tables } p = if c p then table else db.disk.reader p)
    (hreadable : ∀ t, table = some t → HoldsTable codec file t.entries ∧ ∀ p, c p → ∀ e ∈ t.entries,
      Store.FilterPasses { s with files := files } (tablePath s.dbPath p) e.key.userKey)
    (hunreadable : table = none → SSTableReader.openFile true file [] = none) :
    Represents codec { s with files := files } { db with disk := { db.disk with tables := tables } } := by
  refine { h with readable := fun p t hp => ?_, filters := fun p t hp => ?_, unreadable := fun p hp => ?_ }
  all_goals
    rw [hreader] at hp
    split_ifs at hp with hc
  · simpa only [hget,if_pos hc] using (hreadable t hp).1
  · simpa only [hget,if_neg hc] using h.readable p t hp
  · exact (hreadable t hp).2 p hc
  · simpa only [FilterPasses,hside p hc] using h.filters p t hp
  · simpa only [hget,if_pos hc] using hunreadable hp
  · simpa only [hget,if_neg hc] using h.unreadable p hp

/-- A table and its filter are written under a new number. -/
def built (s : Store) (faults : WriteFaults) (p : TablePath) (added : List KeyValue) (content : Bytes) : Store :=
  { s.facing faults.manifestWrites with
    nextFileNumber := s.nextFileNumber+1
    files := s.tableFiles faults (tablePath s.dbPath p) added content }

lemma Represents.build (h : Represents codec s db) (hf : AllDone faults) {p : TablePath} {t : SSTable}
    {content : Bytes} (hcontent : HoldsTable codec (some content) t.entries) :
    Represents codec (s.built faults p (t.entries.map bytes) content) { db with
      version := db.version.advance
      disk := db.disk.exec [.table (.create p),.table (.complete p t)] } := by
  have hside : ∀ p', ¬p' = p → (s.tableFiles faults (tablePath s.dbPath p) (t.entries.map bytes) content).get
      (sidecarPath (tablePath s.dbPath p')) = s.files.get (sidecarPath (tablePath s.dbPath p')) := by
    intro p' hp
    rw [get_tableFiles,if_neg,if_neg]
    · exact fun hs => tablePath_ne_sidecarPath s.dbPath p _ hs.2.symm
    · exact fun hs => hp (tablePath_inj.mp (sidecarPath_injective hs.2)).2
  have hfilter : ∀ p', p' = p → ∀ e ∈ t.entries, Store.FilterPasses { s with
      files := s.tableFiles faults (tablePath s.dbPath p) (t.entries.map bytes) content }
      (tablePath s.dbPath p') e.key.userKey := by
    rintro p' rfl e he filter hfile stack hstack
    dsimp only at hfile
    rw [get_tableFiles,if_pos ⟨hf.sidecarOpened,rfl⟩,hf.sidecarWrite] at hfile
    cases hfile
    rw [← internalKeyUserKey_encode]
    exact mightContain_bloomOf (mem_map_of_mem he (f := bytes)) hstack
  have hbuilt := h.changed (get_tableFiles_tablePath hf.opened p _ content) hside (Disk.reader_build db.disk p t)
    (fun t' ht => by cases ht; exact ⟨hcontent,hfilter⟩) (fun ht => by cases ht)
  exact { hbuilt with nextFileNumber := congrArg (·+1) h.nextFileNumber }

lemma Represents.addLevelFile (h : Represents codec s db) (hm : s.manifest.Healthy) {level : ℕ} {p : TablePath}
    (hfit : (Edit.map (tablePath s.dbPath) (.add level p p.number)).Fits) :
    Represents codec (s.addLevelFile level (tablePath s.dbPath p))
        { db with
          version := db.version.addLevelFile level p
          disk := db.disk.exec (recordOps (.add level p p.number)) } ∧
      (s.addLevelFile level (tablePath s.dbPath p)).manifest.Healthy := by
  have hno : fileNumberOf (tablePath s.dbPath p) = some p.number := fileNumberOf_tablePath s.dbPath hfit.2.1
  obtain ⟨-,hcontent,hhealthy⟩ :=
    writeRecordToFd_healthy hm (Edit.map (tablePath s.dbPath) (.add level p p.number))
  have hadd : s.addLevelFile level (tablePath s.dbPath p) = { s with
      levels := pushFile s.levels level ⟨tablePath s.dbPath p,p.number⟩
      nextFileNumber := max s.nextFileNumber (p.number+1)
      manifest := (writeRecordToFd s.manifest (Edit.map (tablePath s.dbPath) (.add level p p.number))).2 } := by
    simp only [Store.addLevelFile,hno,Option.getD_some,Edit.map]
  have hops : recordOps (.add level p p.number) = [Edit.add level p p.number].flatMap recordOps := by simp
  rw [hadd,hops,Disk.exec_recordOps]
  refine ⟨{ h with levels := ?_, nextFileNumber := ?_, opened := hhealthy.opened, log := h.log_append ?_ rfl ?_ },
    hhealthy⟩
  · rw [h.levels]
    exact (map_pushFile (tablePath s.dbPath) db.version.levels level ⟨p,p.number⟩).symm
  · rw [h.nextFileNumber]
    rfl
  · intro r hr
    rwa [mem_singleton.mp hr]
  · rw [hcontent,map_singleton,flatMap_singleton]

/-- A flush in which no call fails writes what the flush of whole tables and records writes. -/
theorem Represents.flushOne (h : Represents codec s db) (hf : AllDone faults)
    (hnumber : s.nextFileNumber<2^64) (hpath : 17+s.flushPath.length≤2^24) (flushing : MemTableRef)
    (hfit : totalSize (flushing.table.chain.map bytes)<2^32) (wals : List ℕ) :
    Represents codec (s.flushOne codec faults flushing wals) (db.flushOne flushing wals) := by
  rw [Store.flushOne,DBImpl.flushOne]
  split
  · exact h.drop flushing wals
  · have hcontent : HoldsTable codec
        (some (s.flushBuilder codec faults (flushing.table.chain.map bytes)).file.content) flushing.table.chain := by
      rw [flushBuilder,hf.opened]
      exact holdsTable_build s.blockSize s.compression hf.writes hfit
    have hbuilt := @Represents.build _ _ _ _ h hf ⟨0,s.nextFileNumber⟩
      ⟨flushing.table.chain,flushing.table.ascending⟩ _ hcontent
    have hedit : (Edit.map (tablePath s.dbPath) (.add 0 ⟨0,s.nextFileNumber⟩ s.nextFileNumber)).Fits :=
      ⟨by norm_num,hnumber,hpath⟩
    have hlisted := (hbuilt.addLevelFile ⟨h.opened,hf.manifestWrites⟩ hedit).1.drop flushing wals
    rw [← h.nextFileNumber]
    exact hlisted

end Store
end TitanKV.Minikv
