import TitanKV.Library.Layers
import TitanKV.Library.Runs
import TitanKV.Minikv.Refinement

/-! The merge of whole tables is the merge of their bytes, where no call fails. -/
namespace TitanKV.Minikv
open List Entry Disk

section Entries

lemma keepNewest_map {ε ζ : Type*} {userKey : ε → Bytes} {isDeletion : ε → Bool} {userKey' : ζ → Bytes}
    {isDeletion' : ζ → Bool} {f : ε → ζ} (last : Bytes) {es : List ε}
    (h : ∀ e ∈ es, userKey' (f e) = userKey e ∧ isDeletion' (f e) = isDeletion e) :
    keepNewest userKey' isDeletion' last (es.map f) = (keepNewest userKey isDeletion last es).map f := by
  induction es generalizing last with
  | nil => rfl
  | cons e es ih =>
    obtain ⟨hkey,hdel⟩ := h e mem_cons_self
    have hrest := fun last => ih last fun x hx => h x (mem_cons_of_mem e hx)
    rw [map_cons,keepNewest,keepNewest,hkey,hdel]
    split
    · exact hrest last
    · split
      · exact hrest _
      · rw [hrest,map_cons]

abbrev SeqsFit (es : List Entry) : Prop := ∀ e ∈ es, e.key.seq<2^56

lemma keyLe_bytes {a b : Entry} (ha : a.key.seq<2^56) (hb : b.key.seq<2^56) :
    KeyLe a.bytes b.bytes ↔ a.Le b := by
  rw [KeyLe,bytes,bytes,internalKeyCompare_encode ha hb]
  rfl

lemma sortByKey_bytes {es : List Entry} (h : SeqsFit es) :
    sortByKey (es.map bytes) = (es.insertionSort Le).map bytes :=
  (map_insertionSort Le KeyLe bytes es
    fun a ha b hb => (keyLe_bytes (h a ha) (h b hb)).symm).symm

lemma sortByKey_ascending {es : List Entry} (h : SeqsFit es) (hasc : Ascending es) :
    sortByKey (es.map bytes) = es.map bytes := by
  rw [sortByKey_bytes h,Pairwise.insertionSort_eq]
  exact hasc.imp fun hlt => by simp [Le,hlt]

lemma bytes_keeps {e : Entry} (h : e.key.seq<2^56) : internalKeyUserKey e.bytes.1 = e.key.userKey ∧
    decide (internalKeyType e.bytes.1 = ValueType.deletion.code) = e.key.isDeletion := by
  refine ⟨internalKeyUserKey_encode e.key,?_⟩
  rw [bytes,internalKeyType_encode h,InternalKey.isDeletion,decide_eq_decide]
  exact ValueType.code_injective.eq_iff

lemma mergeEntries_bytes {d : Disk} {srcFiles : List TablePath} (h : SeqsFit (sourceEntries d srcFiles)) :
    mergeEntries ((sourceEntries d srcFiles).map bytes) =
      (mergedTable d srcFiles).entries.map bytes := by
  rw [mergeEntries,sortByKey_bytes h]
  apply keepNewest_map
  intro e he
  exact bytes_keeps (h e ((mem_insertionSort Le).mp he))

lemma lookupKeyValue_bytes (userKey : Bytes) {es : List Entry} (h : SeqsFit es) :
    lookupKeyValue userKey (es.map bytes) = lookup userKey es := by
  induction es with
  | nil => rfl
  | cons e es ih =>
    obtain ⟨hkey,hdel⟩ := bytes_keeps (h e mem_cons_self)
    rw [map_cons,lookupKeyValue,lookup,hkey]
    cases Ord.compare e.key.userKey userKey with
    | lt => exact ih fun x hx => h x (mem_cons_of_mem e hx)
    | gt => rfl
    | eq => exact if_congr (by rw [← hdel,decide_eq_true_eq]) rfl rfl

lemma userKeysAscend_bytes {es : List Entry} (h : SeqsFit es) (hasc : Ascending es) :
    UserKeysAscend (es.map bytes) := by
  have hlong : ∀ k : InternalKey, 8≤k.encode.length := fun k => by simp [InternalKey.encode]
  refine pairwise_map.mpr (hasc.imp_of_mem fun ha hb hlt => userKey_le_of_lt (hlong _) (hlong _) ?_)
  rwa [bytes,bytes,internalKeyCompare_encode (h _ ha) (h _ hb)]

end Entries

lemma SSTableBuilder.Steady.addWhileOk (codec : Codec) {b : SSTableBuilder} (h : b.Steady) (es : List KeyValue) :
    b.addWhileOk codec es = (.Ok,b.addAll codec es,es) := by
  induction es generalizing b with
  | nil => rfl
  | cons e es ih =>
    obtain ⟨hok,bs,hwrote,-⟩ := @Steady.add codec b h e
    simp only [SSTableBuilder.addWhileOk]
    rw [if_pos (by rw [hok]; rfl),ih hwrote.steady]
    rfl

namespace Store
variable {codec : Codec} {s : Store} {db : DBImpl} {faults : WriteFaults}

def calmReads : Bytes → ReadFaults := fun _ => ⟨true,[]⟩

lemma Represents.openSource_some (h : Represents codec s db) {p : TablePath} {t : SSTable}
    (hp : db.disk.reader p = some t) : ∃ r, s.openSource calmReads (tablePath s.dbPath p) = some r ∧
      (r.scan codec [] []).1.ok = true ∧ (r.scan codec [] []).2 = t.entries.map bytes := by
  obtain ⟨r,blocks,hopen,hover,hentries⟩ := h.readable p t hp
  refine ⟨r,hopen,?_,?_⟩
  · rw [hover.scan]
    rfl
  · rw [hover.scan,hentries]

variable {srcFiles : List TablePath}

lemma Represents.readSources (h : Represents codec s db)
    (hseq : SeqsFit (sourceEntries db.disk srcFiles)) :
    (s.readSources codec calmReads (srcFiles.map (tablePath s.dbPath))).1.ok = true ∧
      (s.readSources codec calmReads (srcFiles.map (tablePath s.dbPath))).2 =
        (sourceEntries db.disk srcFiles).map bytes := by
  induction srcFiles with
  | nil => exact ⟨rfl,rfl⟩
  | cons p srcFiles ih =>
    have hcons : sourceEntries db.disk (p::srcFiles) = db.disk.entriesOf p ++ sourceEntries db.disk srcFiles := rfl
    rw [hcons] at hseq ⊢
    obtain ⟨hok,hall⟩ := ih fun e he => hseq e (mem_append_right _ he)
    rw [map_cons,Store.readSources]
    cases hp : db.disk.reader p with
    | none =>
      have hnone : s.openSource calmReads (tablePath s.dbPath p) = none := h.unreadable p hp
      rw [hnone]
      refine ⟨hok,?_⟩
      rw [hall,entriesOf,hp]
      rfl
    | some t =>
      obtain ⟨r,hr,hscan,hentries⟩ := h.openSource_some hp
      have ht : db.disk.entriesOf p = t.entries := by rw [entriesOf,hp]
      have hfit : SeqsFit t.entries := by
        rw [← ht]
        exact fun e he => hseq e (mem_append_left _ he)
      rw [hr]
      dsimp only
      rw [if_pos hscan]
      refine ⟨hok,?_⟩
      rw [hentries,sortByKey_ascending hfit t.ascending,hall,ht,map_append]

lemma Represents.unlinkTables (h : Represents codec s db) (paths : List TablePath) :
    Represents codec (s.unlinkTables (paths.map (tablePath s.dbPath)))
      { db with disk := db.disk.exec (paths.map fun path => .table (.unlink path)) } := by
  have hget : ∀ p, (s.unlinkTables (paths.map (tablePath s.dbPath))).files.get (tablePath s.dbPath p) =
      if p ∈ paths then none else s.files.get (tablePath s.dbPath p) := by
    intro p
    rw [Store.unlinkTables,Directory.get_foldl_unlink]
    simp only [mem_map_of_injective (tablePath_injective s.dbPath)]
  have hreader : ∀ p, reader { db.disk with tables := paths.foldl Directory.unlink db.disk.tables } p =
      if p ∈ paths then none else db.disk.reader p := by
    intro p
    rw [reader,reader,Directory.get_foldl_unlink]
    split <;> rfl
  have hside : ∀ p, p ∉ paths → (s.unlinkTables (paths.map (tablePath s.dbPath))).files.get
      (sidecarPath (tablePath s.dbPath p)) = s.files.get (sidecarPath (tablePath s.dbPath p)) := by
    intro p _
    rw [Store.unlinkTables,Directory.get_foldl_unlink,if_neg]
    intro hmem
    obtain ⟨p',-,hp'⟩ := mem_map.mp hmem
    exact tablePath_ne_sidecarPath s.dbPath p' _ hp'
  rw [exec_unlinkTables]
  exact h.changed hget hside hreader (fun _ ht => by cases ht) fun _ => rfl

lemma foldl_writeRecordToFd {f : OutFile} (h : f.Healthy) (edits : List (Edit Bytes)) :
    (edits.foldl (fun f e => (writeRecordToFd f e).2) f).content = f.content ++ edits.flatMap manifestRecord ∧
      (edits.foldl (fun f e => (writeRecordToFd f e).2) f).Healthy := by
  induction edits generalizing f with
  | nil => exact ⟨by simp,h⟩
  | cons e edits ih =>
    obtain ⟨-,hcontent,hhealthy⟩ := writeRecordToFd_healthy h e
    obtain ⟨hrest,hend⟩ := ih hhealthy
    refine ⟨?_,hend⟩
    rw [foldl_cons,hrest,hcontent,flatMap_cons,append_assoc]

lemma filesAt_map {π ρ : Type} (f : π → ρ) (ls : LevelLists π) (i : ℕ) :
    filesAt (LevelLists.map f ls) i = (filesAt ls i).map (FileMeta.map f) := by
  simp only [filesAt,getD_eq_getElem?_getD,getElem?_map]
  cases ls[i]? <;> rfl

lemma contains_map_tablePath (db : Bytes) (paths : List TablePath) (p : TablePath) :
    (paths.map (tablePath db)).contains (tablePath db p) = decide (p ∈ paths) := by
  rw [contains_eq_mem,decide_eq_decide]
  exact mem_map_of_injective (tablePath_injective db)

lemma Represents.removeLevelFiles (h : Represents codec s db) (hm : s.manifest.Healthy) {level : ℕ}
    {paths : List TablePath}
    (hfit : ∀ r ∈ removeRecords db.version.levels level paths, (r.map (tablePath s.dbPath)).Fits) :
    Represents codec (s.removeLevelFiles level (paths.map (tablePath s.dbPath))) { db with
      version := db.version.removeLevelFiles level paths
      disk := db.disk.exec ((removeRecords db.version.levels level paths).flatMap recordOps) } := by
  have hgone : ((filesAt s.levels level).filter fun m => (paths.map (tablePath s.dbPath)).contains m.path).map
      (fun m => Edit.del level m.path m.fileNumber) =
      (removeRecords db.version.levels level paths).map (Edit.map (tablePath s.dbPath)) := by
    rw [h.levels,filesAt_map,filter_map,removeRecords,map_map,map_map]
    exact congrArg (map _) (filter_congr fun m _ => contains_map_tablePath s.dbPath paths m.path)
  have hmanifest : (s.removeLevelFiles level (paths.map (tablePath s.dbPath))).manifest =
      ((removeRecords db.version.levels level paths).map (Edit.map (tablePath s.dbPath))).foldl
        (fun f e => (writeRecordToFd f e).2) s.manifest := by
    rw [← hgone,foldl_map]
    rfl
  obtain ⟨hcontent,hhealthy⟩ := foldl_writeRecordToFd hm
    ((removeRecords db.version.levels level paths).map (Edit.map (tablePath s.dbPath)))
  rw [exec_recordOps]
  refine { h with levels := ?_, opened := ?_, log := ?_ }
  · change eraseFiles s.levels level _ = LevelLists.map (tablePath s.dbPath) (eraseFiles db.version.levels level _)
    rw [h.levels]
    exact (map_eraseFiles (tablePath s.dbPath) db.version.levels level fun m =>
      contains_map_tablePath s.dbPath paths m.path).symm
  · rw [hmanifest]
    exact hhealthy.opened
  · rw [hmanifest]
    exact h.log_append hfit rfl hcontent

/-- What the records of a merge need to be replayed. -/
structure MergeFits (s : Store) (db : DBImpl) (srcLevel : ℕ) (srcFiles : List TablePath) : Prop where
  seqs : SeqsFit (sourceEntries db.disk srcFiles)
  table : totalSize ((mergedTable db.disk srcFiles).entries.map bytes)<2^32
  add : (Edit.map (tablePath s.dbPath)
    (.add (srcLevel+1) ⟨srcLevel+1,db.version.nextFileNumber⟩ db.version.nextFileNumber)).Fits
  removals : ∀ r ∈ removeRecords db.version.levels srcLevel srcFiles, (r.map (tablePath s.dbPath)).Fits

lemma mergeInto_eq (hf : AllWritten faults) (srcLevel : ℕ) (srcFiles : List Bytes) {all kept : List KeyValue}
    (hkept : mergeEntries all = kept) :
    let built := s.built faults ⟨srcLevel+1,s.nextFileNumber⟩ kept
      (((SSTableBuilder.init s.blockSize .snappy true faults.writes).addAll codec kept).finish codec).2.file.content
    s.mergeInto codec faults srcLevel srcFiles all =
      (.Ok,((if kept.isEmpty then built.unlinkTables [s.mergePath srcLevel]
        else built.addLevelFile (srcLevel+1) (s.mergePath srcLevel)).removeLevelFiles srcLevel srcFiles).unlinkTables
          srcFiles) := by
  have hadded := (SSTableBuilder.Steady.init s.blockSize .snappy hf.writes).addWhileOk codec kept
  have hfinished := (SSTableBuilder.finish_addAll codec s.blockSize .snappy hf.writes kept rfl rfl).1
  simp only [mergeInto,hkept,hf.opened,hadded,hfinished,Status.ok_Ok,Bool.true_eq_false,if_false]
  split <;> rfl

/-- A merge in which no call fails does what the merge of whole tables and records does. -/
theorem Represents.mergeLevelFiles (h : Represents codec s db) (hf : AllDone faults) {srcLevel : ℕ}
    (hfit : MergeFits s db srcLevel srcFiles) :
    (s.mergeLevelFiles codec calmReads faults srcLevel (srcFiles.map (tablePath s.dbPath))).1 =
        (db.mergeLevelFiles srcLevel srcFiles).1 ∧
      Represents codec (s.mergeLevelFiles codec calmReads faults srcLevel (srcFiles.map (tablePath s.dbPath))).2
        (db.mergeLevelFiles srcLevel srcFiles).2 := by
  by_cases hidle : srcFiles = [] ∨ s.maxLevel ≤ srcLevel
  · have hstore : s.mergeLevelFiles codec calmReads faults srcLevel (srcFiles.map (tablePath s.dbPath)) =
        (.Ok,s) := by
      rcases hidle with rfl | hlevel
      · rfl
      · exact mergeLevelFiles_deepest faults _ hlevel
    have hdb : db.mergeLevelFiles srcLevel srcFiles = (.Ok,db) := by
      rcases hidle with rfl | hlevel
      · rfl
      · simp only [DBImpl.mergeLevelFiles,← h.maxLevel,if_pos (Nat.lt_succ_of_le hlevel),ite_self]
    rw [hstore,hdb]
    exact ⟨rfl,h⟩
  · obtain ⟨hne,hlevel⟩ := not_or.mp hidle
    obtain ⟨hok,hall⟩ := h.readSources hfit.seqs
    have hmerge := @mergeLevelFiles_eq codec s calmReads faults srcLevel (srcFiles.map (tablePath s.dbPath))
      (by simpa using hne) (by omega)
    rw [if_neg (by simp [hok]),hall,mergeInto_eq hf.toAllWritten srcLevel _ (mergeEntries_bytes hfit.seqs)] at hmerge
    have hnonempty : ¬ srcFiles.isEmpty = true := by simpa using hne
    have hdeep : ¬ db.options.maxLevel<srcLevel+1 := by
      rw [← h.maxLevel]
      omega
    have hbuilt := @Represents.build _ _ _ _ h hf ⟨srcLevel+1,s.nextFileNumber⟩ (mergedTable db.disk srcFiles) _
      (holdsTable_build s.blockSize .snappy hf.writes hfit.table)
    have hadd := hfit.add
    rw [hmerge]
    simp only [DBImpl.mergeLevelFiles,if_neg hnonempty,if_neg hdeep,isEmpty_map]
    rw [← h.nextFileNumber] at hadd ⊢
    set newFile : TablePath := ⟨srcLevel+1,s.nextFileNumber⟩
    split
    · refine ⟨rfl,?_⟩
      have hdropped := (hbuilt.unlinkTables [newFile]).removeLevelFiles ⟨h.opened,hf.manifestWrites⟩ hfit.removals
      rw [dropOps,exec_append,exec_append]
      exact hdropped.unlinkTables srcFiles
    · refine ⟨rfl,?_⟩
      have hremovals :
          removeRecords (db.version.advance.addLevelFile (srcLevel+1) newFile).levels srcLevel srcFiles =
            removeRecords db.version.levels srcLevel srcFiles := by
        rw [removeRecords,removeRecords,Version.addLevelFile,filesAt_pushFile,if_neg (by omega)]
        rfl
      obtain ⟨hadded,hhealthy⟩ := hbuilt.addLevelFile ⟨h.opened,hf.manifestWrites⟩ hadd
      have hmoved := hadded.removeLevelFiles hhealthy (by rw [hremovals]; exact hfit.removals)
      rw [hremovals] at hmoved
      rw [mergeOps,exec_append,exec_append,exec_append]
      exact hmoved.unlinkTables srcFiles

section Get
variable {stack : Bytes} (hstack : stack.length = 16)
include hstack

lemma Represents.tableGet (h : Represents codec s db) {p : TablePath} (hseq : SeqsFit (db.disk.entriesOf p))
    (key : Bytes) :
    s.tableGet codec stack .none key (tablePath s.dbPath p) = (db.disk.reader p).bind fun t => t.get key := by
  rw [Store.tableGet,if_neg (by simp [ReadFailures.none])]
  cases hp : db.disk.reader p with
  | none => rw [h.unreadable p hp,Option.bind_none,Option.bind_none]
  | some t =>
    obtain ⟨r,blocks,hopen,hover,hentries⟩ := h.readable p t hp
    rw [entriesOf,hp] at hseq
    have hget := @SSTableReader.Over.get _ key _ _ hover (s.bloomAt stack (tablePath s.dbPath p))
    rw [hentries,lookupKeyValue_bytes key hseq] at hget
    rw [hopen]
    refine hget (userKeysAscend_bytes hseq t.ascending) fun x hx f hf => ?_
    obtain ⟨e,he,rfl⟩ := mem_map.mp hx
    obtain ⟨content,hcontent,rfl⟩ := Option.map_eq_some_iff.mp hf
    rw [bytes,internalKeyUserKey_encode]
    exact h.filters p t hp e he content hcontent stack hstack

/-- `get` over the bytes of the files returns what `get` over whole tables returns. -/
theorem Represents.get (h : Represents codec s db) (hseq : ∀ p, SeqsFit (db.disk.entriesOf p)) (key : Bytes) :
    s.get codec stack .none db.memtable db.seq key = db.get key := by
  have hsearch : s.searchOrder.findSome? (s.tableGet codec stack .none key) =
      (range (db.options.maxLevel+1)).findSome? fun level =>
        (db.version.getLevelFiles level).findSome? fun path =>
        (db.disk.reader path).bind fun reader => reader.get key := by
    rw [searchOrder,Layers.findSome?_flatMap,h.maxLevel]
    congr 1
    funext level
    rw [h.levels,filesAt_map,Version.getLevelFiles,map_map,findSome?_map,findSome?_map]
    congr 1
    funext m
    exact h.tableGet hstack (hseq m.path) key
  rw [Store.get,DBImpl.get,memoryGet,hsearch,h.immutableList]
  cases db.memtable.table.get key db.seq <;> rfl

end Get

/-- A flush or a merge, and what the calls that write do in it. -/
inductive TableWork
  | flush (faults : WriteFaults) (flushing : MemTableRef) (wals : List ℕ)
  | merge (faults : WriteFaults) (srcLevel : ℕ) (srcFiles : List TablePath)

/-- The same work over bytes and over whole tables. -/
def workStep (codec : Codec) (p : Store × DBImpl) : TableWork → Option (Store × DBImpl)
  | .flush faults flushing wals => some (p.1.flushOne codec faults flushing wals,p.2.flushOne flushing wals)
  | .merge faults srcLevel srcFiles =>
    some ((p.1.mergeLevelFiles codec calmReads faults srcLevel (srcFiles.map (tablePath p.1.dbPath))).2,
      (p.2.mergeLevelFiles srcLevel srcFiles).2)

def WorkFits (p : Store × DBImpl) : TableWork → Prop
  | .flush faults flushing _ => AllDone faults ∧ p.1.nextFileNumber<2^64 ∧ 17+p.1.flushPath.length≤2^24 ∧
      totalSize (flushing.table.chain.map bytes)<2^32
  | .merge faults srcLevel srcFiles => AllDone faults ∧ MergeFits p.1 p.2 srcLevel srcFiles

lemma Represents.workStep {p p' : Store × DBImpl} {w : TableWork} (h : Represents codec p.1 p.2)
    (hfit : WorkFits p w) (hp : workStep codec p w = some p') : Represents codec p'.1 p'.2 := by
  cases w with
  | flush faults flushing wals =>
    cases hp
    obtain ⟨hf,hnumber,hpath,hsize⟩ := hfit
    exact h.flushOne hf hnumber hpath flushing hsize wals
  | merge faults srcLevel srcFiles =>
    cases hp
    exact (h.mergeLevelFiles hfit.1 hfit.2).2

/-- Over any run of flushes and merges the files stay those of the tables, the MANIFEST replays to their paths, and
`get` returns the same from both. -/
theorem represents_run (h : Represents codec s db) {works : List TableWork} {p : Store × DBImpl}
    (hmeets : Runs.Meets (workStep codec) WorkFits (s,db) works)
    (hrun : Runs.run (workStep codec) (s,db) works = some p) :
    Represents codec p.1 p.2 ∧
      manifestLevels p.1.manifest.content = LevelLists.map (tablePath p.1.dbPath) p.2.disk.listed ∧
      ∀ stack key, stack.length = 16 → (∀ path, SeqsFit (p.2.disk.entriesOf path)) →
        p.1.get codec stack .none p.2.memtable p.2.seq key = p.2.get key := by
  have hend := Runs.invariant (fun _ _ _ => Represents.workStep) hmeets hrun h
  exact ⟨hend,hend.manifestLevels,fun _ key hstack hseq => hend.get hstack hseq key⟩

def frozenDB : DBImpl := { DBImpl.fresh ⟨100,7⟩ with
  immutableList := [frozenTable], version := ⟨[],2⟩, disk := ⟨[(1,[])],[],⟨some [],none,none⟩⟩ }

theorem represents_flushed_merged : ∃ p, Runs.run (workStep markingCodec) (frozenStore,frozenDB)
    [.flush ⟨true,[],true,.full,[]⟩ frozenTable [1],.merge ⟨true,[],true,.full,[]⟩ 0 [⟨0,2⟩]] = some p ∧
    Represents markingCodec p.1 p.2 := by
  have hall : AllDone ⟨true,[],true,.full,[]⟩ := ⟨⟨rfl,by simp,by simp⟩,rfl,rfl⟩
  have hstart : Represents markingCodec frozenStore frozenDB :=
    ⟨rfl,rfl,rfl,rfl,rfl,fun _ _ h => (by cases h),fun _ _ h => (by cases h),fun _ _ => rfl,rfl,[],by simp,rfl,rfl⟩
  refine (Option.isSome_iff_exists.mp rfl).imp fun p hp => ⟨hp,(represents_run hstart ?_ hp).1⟩
  refine ⟨⟨hall,by decide,by decide,by decide +kernel⟩,?_⟩
  rintro _ ⟨⟩
  exact ⟨⟨hall,by decide +kernel,by decide +kernel,by decide,by decide +kernel⟩,fun _ _ => trivial⟩

end Store
end TitanKV.Minikv
