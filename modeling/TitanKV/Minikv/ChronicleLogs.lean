import TitanKV.Library.Recency
import TitanKV.Minikv.CompactionCrash
import TitanKV.Minikv.StampedLogs
import TitanKV.Minikv.ThreadsTidy

/-! The WAL files while the threads work. They fall into generations, one for each MemTable, in the order
in which these are flushed; every MemTable holds the operations of the files of its generation. -/
namespace TitanKV.Minikv
open List Subset

def FlushThread.generation : FlushThread → List (List ℕ)
  | waiting => []
  | creating entry _ | building entry _ | listing entry _ | erasing entry => [entry.wals]
  | unlinking wals | dropping _ wals => [wals]

def FlushThread.Logged (l : Ledger) : FlushThread → Prop
  | creating entry _ | building entry _ | listing entry _ => Holds entry.memtable.table.chain (l.ops entry.wals)
  | _ => True

namespace DBImpl

def activeWals (db : DBImpl) : List ℕ := db.obsoleteWals++[db.currentWal]

/-- The generations that the flush thread has not taken yet, the active one last. -/
def waitingWals (db : DBImpl) : List (List ℕ) := db.flushQueue.map FlushEntry.wals ++ [db.activeWals]

variable {db db' : DBImpl}

lemma Listed.frame (h : db.Listed) (hp : db'.Placed) (hlevels : db'.version.levels = db.version.levels)
    (hactive : db'.disk.manifest.active = db.disk.manifest.active) : db'.Listed :=
  ⟨hp,by rw [hlevels]; exact h.distinct,by rw [hlevels,hactive]; exact h.records⟩

lemma Listed.add (h : db.Listed) (hp : db'.Placed) {path : TablePath} (hpath : db.Unlisted path)
    (hlevels : db'.version.levels = pushFile db.version.levels path.level ⟨path,path.number⟩)
    (hdisk : db'.disk = db.disk.exec (recordOps (.add path.level path path.number))) : db'.Listed := by
  obtain ⟨records,hactive,hsame⟩ := h.records
  have hone : [Edit.add path.level path path.number].flatMap recordOps =
      recordOps (.add path.level path path.number) := flatMap_singleton _ _
  refine ⟨hp,?_,records++[.add path.level path path.number],?_,?_⟩
  · intro i
    rw [hlevels,filesAt_pushFile]
    split
    · rename_i hi
      rw [map_append,nodup_append]
      refine ⟨h.distinct i,nodup_singleton _,?_⟩
      rintro p hpi q hq rfl
      rw [map_singleton,mem_singleton] at hq
      rw [hq,← hi] at hpi
      exact hpath.2 hpi
    · exact h.distinct i
  · rw [hdisk,← hone,Disk.exec_recordOps,hactive]
    exact congrArg some flatMap_append.symm
  · rw [hlevels,replayRecords_append]
    exact hsame.pushFile _ _

lemma Listed.remove (h : db.Listed) (hp : db'.Placed) {level : ℕ} {paths : List TablePath}
    (hlevels : db'.version.levels = eraseFiles db.version.levels level fun m => m.path ∈ paths)
    (hdisk : db'.disk = db.disk.exec ((removeRecords db.version.levels level paths).flatMap recordOps)) :
    db'.Listed := by
  obtain ⟨records,hactive,hsame⟩ := h.records
  refine ⟨hp,?_,records ++ removeRecords db.version.levels level paths,?_,?_⟩
  · intro i
    rw [hlevels,filesAt_eraseFiles]
    split
    · exact (h.distinct i).sublist (filter_sublist.map _)
    · exact h.distinct i
  · rw [hdisk,Disk.exec_recordOps,hactive]
    exact congrArg some flatMap_append.symm
  · rw [hlevels,replayRecords_append]
    exact hsame.removeRecords level paths

/-- Files are listed under the number in their name. -/
def Numbered (db : DBImpl) : Prop := ∀ i, ∀ m ∈ filesAt db.version.levels i, m.path.number = m.fileNumber

end DBImpl

def Threads.generations (s : Threads) : List (List ℕ) := s.flusher.generation++s.db.waitingWals

structure Threads.Logged (l : Ledger) (s : Threads) : Prop where
  tidy : s.Tidy
  listed : s.db.Listed
  numbered : s.db.Numbered
  logs : Logs l s.db.disk s.generations
  below : ∀ n ∈ s.db.disk.wals.names, n<s.db.version.nextFileNumber
  active : Holds s.db.memtable.table.chain (l.ops s.db.activeWals)
  seqs : ∀ e ∈ s.db.memtable.table.chain, e.key.seq ≤ s.db.seq
  queue : ∀ entry ∈ s.db.flushQueue, Holds entry.memtable.table.chain (l.ops entry.wals)
  flusher : s.flusher.Logged l

namespace Threads

/-- A step that neither lists a table nor touches a WAL file. -/
structure Quiet (s s' : Threads) : Prop where
  levels : s'.db.version.levels = s.db.version.levels
  next : s.db.version.nextFileNumber ≤ s'.db.version.nextFileNumber
  manifest : s'.db.disk.manifest = s.db.disk.manifest
  wals : s'.db.disk.wals = s.db.disk.wals
  entries : ∀ i, ∀ path ∈ s.db.version.getLevelFiles i, s'.db.disk.entriesOf path = s.db.disk.entriesOf path
  generations : s'.generations = s.generations ∨ s.generations = []::s'.generations
  memtable : s'.db.memtable = s.db.memtable
  seq : s'.db.seq = s.db.seq
  activeWals : s'.db.activeWals = s.db.activeWals
  queue : s'.db.flushQueue ⊆ s.db.flushQueue

lemma Logged.quiet {l l' : Ledger} {s s' : Threads} (h : s.Logged l) (hq : s.Quiet s') (htidy : s'.Tidy)
    (hlogs : l'.logs = l.logs) (hclock : l'.clock = l.clock) (hf : s'.flusher.Logged l) : s'.Logged l' := by
  have hops : l'.ops = l.ops := by
    funext wals
    rw [Ledger.ops,hlogs]
    rfl
  have hflat : s'.generations.flatten = s.generations.flatten := by
    rcases hq.generations with heq | heq
    · rw [heq]
    · rw [heq]
      rfl
  obtain ⟨hnames,hasc,hreplayed,htimes,hlt⟩ := (h.logs.congr hq.wals).regroup hflat
  refine ⟨htidy,h.listed.frame htidy.db.placed hq.levels (congrArg ManifestFiles.active hq.manifest),?_,
    ⟨hnames,hasc,hlogs ▸ hreplayed,hlogs ▸ htimes,by rw [hlogs,hclock]; exact hlt⟩,?_,?_,?_,?_,?_⟩
  · intro i m hm
    rw [hq.levels] at hm
    exact h.numbered i m hm
  · rw [hq.wals]
    exact fun n hn => (h.below n hn).trans_le hq.next
  · rw [hq.memtable,hq.activeWals,hops]
    exact h.active
  · rw [hq.memtable,hq.seq]
    exact h.seqs
  · rw [hops]
    exact fun entry hentry => h.queue entry (hq.queue hentry)
  · cases hs : s'.flusher with
    | creating entry path | building entry path | listing entry path =>
      rw [hs] at hf
      rw [FlushThread.Logged,hops]
      exact hf
    | _ => trivial

end Threads

lemma FlushThread.Logged.congr {f : FlushThread} {l l' : Ledger} (h : f.Logged l)
    (hops : ∀ wals ∈ f.generation, l'.ops wals = l.ops wals) : f.Logged l' := by
  cases f with
  | creating entry path | building entry path | listing entry path =>
    rw [FlushThread.Logged,hops entry.wals (by simp [generation])]
    exact h
  | _ => trivial

lemma exec_appendOps (d : Disk) (wal : ℕ) (group : WriteGroup) :
    d.exec (appendOps wal group) = d.apply (.wal (.append wal (walRecord (encodeGroup group)))) := by
  rw [appendOps]
  split
  · rename_i hempty
    rw [walRecord,isEmpty_iff.mp hempty,append_nil]
    rfl
  · have hwals := d.wals.update_update wal (· ++ walHeader (encodeGroup group)) (· ++ walPayload (encodeGroup group))
    simp only [append_assoc] at hwals
    exact congrArg (fun wals => { d with wals := wals }) hwals

lemma DBImpl.writeGroup_eq (db : DBImpl) {group : WriteGroup} (h : group.isEmpty = false) : db.writeGroup group =
    { db with
      seq := db.seq+group.flatten.length
      memtable := ⟨db.memtable.id,applyGroup db.memtable.table db.seq group⟩
      disk := db.disk.apply (.wal (.append db.currentWal (walRecord (encodeGroup group)))) } := by
  rw [writeGroup,h,if_neg (by simp),exec_appendOps]

/-- The next step lists a table or unlinks a WAL file. -/
def FlushThread.busy : FlushThread → Bool
  | listing _ _ | unlinking (_::_) | dropping _ (_::_) => true
  | _ => false

/-- The next step changes which tables are listed. -/
def CompactionThread.busy : CompactionThread → Bool
  | listing _ _ _ merged => !merged.entries.isEmpty
  | retracting _ _ => true
  | _ => false

namespace Threads
variable {s s' : Threads} {l : Ledger}

lemma entriesOf_of_unlisted {db : DBImpl} (op : TableOp) (hp : db.Placed) (hop : db.Unlisted op.path) (i : ℕ)
    {path : TablePath} (hpath : path ∈ db.version.getLevelFiles i) :
    (db.disk.apply (.table op)).entriesOf path = db.disk.entriesOf path :=
  db.disk.entriesOf_tableOp op (hop.ne hp hpath)

theorem quiet_flush (h : s.Tidy) (hbusy : s.flusher.busy = false) (hstep : s.flushStep = some s') : s.Quiet s' := by
  obtain ⟨db,f,c⟩ := s
  obtain ⟨hdb,-,hf,-,-⟩ := h
  have hgens : ∀ {entry queue}, db.flushQueue = entry::queue →
    entry.wals::(queue.map FlushEntry.wals ++ [db.activeWals]) =
      (⟨db,.waiting,c⟩ : Threads).generations := by
    intro entry queue hqueue
    simp [generations,FlushThread.generation,DBImpl.waitingWals,hqueue]
  cases flushStep_cases hstep with
  | skip hqueue _ =>
    exact ⟨rfl,le_rfl,rfl,rfl,fun _ _ _ => rfl,.inl (hgens hqueue),rfl,rfl,rfl,hqueue ▸ subset_cons_self _ _⟩
  | take hqueue _ =>
    exact ⟨rfl,Nat.le_succ _,rfl,rfl,fun _ _ _ => rfl,.inl (hgens hqueue),rfl,rfl,rfl,hqueue ▸ subset_cons_self _ _⟩
  | create entry path =>
    exact ⟨rfl,le_rfl,rfl,rfl,fun i _ hp => entriesOf_of_unlisted (.create path) hdb.placed hf.1 i hp,.inl rfl,rfl,
      rfl,rfl,refl _⟩
  | build entry path =>
    exact ⟨rfl,le_rfl,rfl,rfl,fun i _ hp => entriesOf_of_unlisted (.complete path entry.sstable) hdb.placed hf.1 i
      hp,.inl rfl,rfl,rfl,rfl,refl _⟩
  | erase entry => exact ⟨rfl,le_rfl,rfl,rfl,fun _ _ _ => rfl,.inl rfl,rfl,rfl,rfl,refl _⟩
  | done | dropped entry => exact ⟨rfl,le_rfl,rfl,rfl,fun _ _ _ => rfl,.inr rfl,rfl,rfl,rfl,refl _⟩
  | list _ _ | unlink _ _ | drop _ _ _ => cases hbusy

theorem quiet_compact (h : s.Tidy) (hbusy : s.compactor.busy = false) (hstep : s.compactStep = some s') :
    s.Quiet s' := by
  obtain ⟨db,f,c⟩ := s
  obtain ⟨hdb,-,-,hc,-⟩ := h
  cases compactStep_cases hstep with
  | number level sources all =>
    exact ⟨rfl,Nat.le_succ _,rfl,rfl,fun _ _ _ => rfl,.inl rfl,rfl,rfl,rfl,refl _⟩
  | read _ _ _ _ _ | done => exact ⟨rfl,le_rfl,rfl,rfl,fun _ _ _ => rfl,.inl rfl,rfl,rfl,rfl,refl _⟩
  | create level sources newFile merged =>
    exact ⟨rfl,le_rfl,rfl,rfl,fun i _ hp => entriesOf_of_unlisted (.create newFile) hdb.placed hc.unlisted i hp,
      .inl rfl,rfl,rfl,rfl,refl _⟩
  | build level sources newFile merged =>
    exact ⟨rfl,le_rfl,rfl,rfl,
      fun i _ hp => entriesOf_of_unlisted (.complete newFile merged) hdb.placed hc.unlisted i hp,.inl rfl,rfl,rfl,
      rfl,refl _⟩
  | discard level sources newFile merged _ =>
    exact ⟨rfl,le_rfl,rfl,rfl,fun i _ hp => entriesOf_of_unlisted (.unlink newFile) hdb.placed hc.1.unlisted i hp,
      .inl rfl,rfl,rfl,rfl,refl _⟩
  | list level sources newFile merged hkept => exact absurd (by simpa [CompactionThread.busy] using hbusy) hkept
  | retract level sources => cases hbusy
  | unlink path paths =>
    exact ⟨rfl,le_rfl,rfl,rfl,fun i _ hp => entriesOf_of_unlisted (.unlink path) hdb.placed (hc path (by simp)) i hp,
      .inl rfl,rfl,rfl,rfl,refl _⟩

lemma logs_step (l : Ledger) (s : Threads) {e : ThreadEvent} (he : ∀ group, e ≠ .write group) :
    (l.step s e).logs = l.logs ∧ (l.step s e).clock = l.clock := by
  cases e with
  | write group => exact (he group rfl).elim
  | flush =>
    rw [Ledger.step]
    split <;> exact ⟨rfl,rfl⟩
  | merge level => exact ⟨rfl,rfl⟩
  | compact =>
    rw [Ledger.step]
    split
    · exact ⟨rfl,rfl⟩
    · split <;> exact ⟨rfl,rfl⟩
    · exact ⟨rfl,rfl⟩

lemma Logged.flusher_step (h : s.Logged l) (hstep : s.flushStep = some s') : s'.flusher.Logged l := by
  obtain ⟨db,f,c⟩ := s
  obtain ⟨-,-,-,-,-,-,-,hqueue,hf⟩ := h
  cases flushStep_cases hstep with
  | take hq _ => exact hqueue _ (by simp [hq])
  | create entry path | build entry path => exact hf
  | _ => trivial

lemma Logged.unlinkWal {n : ℕ} {wals : List ℕ} {f : FlushThread} (h : s.Logged l)
    (hgen : s.flusher.generation = [n::wals]) (hf : f.generation = [wals]) (hlogged : f.Logged l)
    (htidy : Tidy { s with db := s.db.calls [.wal (.unlink n)], flusher := f }) :
    Logged l { s with db := s.db.calls [.wal (.unlink n)], flusher := f } := by
  have hlogs := h.logs
  rw [generations,hgen] at hlogs
  have hunlinked := hlogs.unlink
  refine { h with
    tidy := htidy, listed := h.listed.frame htidy.db.placed rfl rfl, logs := ?_, below := ?_, flusher := hlogged }
  · rw [generations,hf]
    exact hunlinked
  · intro m hm
    refine h.below m ?_
    change m ∈ (s.db.disk.apply (.wal (.unlink n))).wals.names at hm
    rw [hunlinked.names] at hm
    rw [hlogs.names]
    exact mem_cons_of_mem n hm

theorem Logged.flush (h : s.Logged l) (hstep : s.flushStep = some s') : s'.Logged (l.step s .flush) := by
  have htidy := h.tidy.flush hstep
  have hf := h.flusher_step hstep
  obtain ⟨hlogs,hclock⟩ := logs_step l s (e := .flush) fun _ heq => by cases heq
  cases hbusy : s.flusher.busy with
  | false => exact h.quiet (quiet_flush h.tidy hbusy hstep) htidy hlogs hclock hf
  | true =>
    obtain ⟨db,f,c⟩ := s
    cases flushStep_cases hstep with
    | list entry path =>
      refine ⟨htidy,h.listed.add htidy.db.placed h.tidy.flusher.1.1 rfl rfl,?_,h.logs.congr rfl,?_,h.active,h.seqs,
        h.queue,hf⟩
      · intro i m hm
        change m ∈ filesAt (pushFile db.version.levels path.level ⟨path,path.number⟩) i at hm
        rw [filesAt_pushFile] at hm
        rcases Recency.mem_push hm with hm | ⟨-,rfl⟩
        · exact h.numbered i m hm
        · rfl
      · exact fun n hn => (h.below n hn).trans_le (Nat.le_max_left _ _)
    | unlink n wals | drop entry n wals => exact h.unlinkWal rfl rfl hf htidy
    | _ => cases hbusy

lemma Logged.merge {level : ℕ} (h : s.Logged l) (hstep : s.step (.merge level) = some s') : s'.Logged l := by
  have htidy := h.tidy.merge hstep
  obtain ⟨-,-,rfl⟩ := merge_eq hstep
  exact { h with tidy := htidy }

lemma flusher_compactStep (hstep : s.compactStep = some s') : s'.flusher = s.flusher := by
  obtain ⟨db,f,c⟩ := s
  cases compactStep_cases hstep <;> rfl

theorem Logged.compact (h : s.Logged l) (hstep : s.compactStep = some s') : s'.Logged (l.step s .compact) := by
  have htidy := h.tidy.compact hstep
  have hf : s'.flusher.Logged l := by
    rw [flusher_compactStep hstep]
    exact h.flusher
  obtain ⟨hlogs,hclock⟩ := logs_step l s (e := .compact) fun _ heq => by cases heq
  cases hbusy : s.compactor.busy with
  | false => exact h.quiet (quiet_compact h.tidy hbusy hstep) htidy hlogs hclock hf
  | true =>
    obtain ⟨db,f,c⟩ := s
    cases compactStep_cases hstep with
    | list level sources newFile merged hkept =>
      rw [Ledger.step]
      dsimp only
      rw [if_neg hkept]
      refine ⟨htidy,h.listed.add htidy.db.placed h.tidy.compactor.1.unlisted rfl rfl,?_,?_,?_,h.active,h.seqs,
        h.queue,hf⟩
      · intro i m hm
        change m ∈ filesAt (pushFile db.version.levels newFile.level ⟨newFile,newFile.number⟩) i at hm
        rw [filesAt_pushFile] at hm
        rcases Recency.mem_push hm with hm | ⟨-,rfl⟩
        · exact h.numbered i m hm
        · rfl
      · obtain ⟨hnames,hasc,hreplayed,htimes,hlt⟩ := h.logs
        exact ⟨hnames,hasc,hreplayed,htimes,hlt⟩
      · exact fun n hn => (h.below n hn).trans_le (Nat.le_max_left _ _)
    | retract level sources =>
      refine ⟨htidy,h.listed.remove htidy.db.placed rfl rfl,?_,h.logs.congr ?_,?_,h.active,h.seqs,h.queue,hf⟩
      · intro i m hm
        change m ∈ filesAt (eraseFiles db.version.levels level _) i at hm
        rw [filesAt_eraseFiles] at hm
        split at hm
        · exact h.numbered i m (mem_of_mem_filter hm)
        · exact h.numbered i m hm
      · change (db.disk.exec ((removeRecords db.version.levels level sources).flatMap recordOps)).wals = db.disk.wals
        rw [Disk.exec_recordOps]
      · intro n hn
        change n ∈
          (db.disk.exec ((removeRecords db.version.levels level sources).flatMap recordOps)).wals.names at hn
        rw [Disk.exec_recordOps] at hn
        exact h.below n hn
    | discard level sources newFile merged hempty => simp [CompactionThread.busy,hempty] at hbusy
    | _ => cases hbusy

lemma flatten_generations (s : Threads) : s.generations.flatten =
    s.flusher.generation.flatten++((s.db.flushQueue.map FlushEntry.wals).flatten++s.db.obsoleteWals) ++
      [s.db.currentWal] := by
  simp [generations,DBImpl.waitingWals,DBImpl.activeWals]

lemma generations_freeze (s : Threads) :
    generations { s with db := s.db.freeze } = s.generations++[[s.db.version.nextFileNumber]] := by
  simp [generations,DBImpl.waitingWals,DBImpl.activeWals,DBImpl.freeze,DBImpl.rotateWal]

section Write
variable (h : s.Logged l)
include h

lemma Logged.currentWal_not_mem {wals : List ℕ}
    (hwals : wals ∈ s.flusher.generation ++ s.db.flushQueue.map FlushEntry.wals) : s.db.currentWal ∉ wals := by
  intro hmem
  have hasc := h.logs.ascending
  rw [h.logs.names,s.flatten_generations] at hasc
  refine lt_irrefl _ ((pairwise_append.mp hasc).2.2 s.db.currentWal ?_ s.db.currentWal (by simp))
  rw [← append_assoc,← flatten_append]
  exact mem_append_left _ (mem_flatten.mpr ⟨wals,hwals,hmem⟩)

lemma Logged.currentWal_not_obsolete : s.db.currentWal ∉ s.db.obsoleteWals := by
  intro hmem
  have hasc := h.logs.ascending
  rw [h.logs.names,s.flatten_generations] at hasc
  refine lt_irrefl _ ((pairwise_append.mp hasc).2.2 s.db.currentWal ?_ s.db.currentWal (by simp))
  exact mem_append_right _ (mem_append_right _ hmem)

lemma Logged.next_not_mem {wals : List ℕ} (hwals : wals ∈ s.generations) : s.db.version.nextFileNumber ∉ wals := by
  intro hmem
  refine lt_irrefl _ (h.below s.db.version.nextFileNumber ?_)
  rw [h.logs.names]
  exact mem_flatten.mpr ⟨wals,hwals,hmem⟩

/-- A group whose record goes behind complete ones. -/
theorem Logged.writeGroup {group : WriteGroup} (hgroup : group.isEmpty = false)
    (hsize : (encodeGroup group).length<2^32)
    (hwhole : WholeRecords ((s.db.disk.wals.get s.db.currentWal).getD [])) :
    Logged (l.append s.db.currentWal group.flatten) { s with db := s.db.writeGroup group } := by
  have htidy := h.tidy.wrote (s.db.wrote_writeGroup group)
  have hnodup : s.db.disk.wals.names.Nodup := h.logs.ascending.imp fun hlt => hlt.ne
  have hnew : ∀ bytes, (s.db.currentWal,bytes) ∈ s.db.disk.wals →
      replayedOps (bytes ++ walRecord (encodeGroup group)) = replayedOps bytes ++ group.flatten := by
    intro bytes hmem
    rw [Directory.get_of_mem hnodup hmem] at hwhole
    exact replayedOps_record hwhole hsize
  have hlogs := h.logs.append s.flatten_generations hnew
  rw [s.db.writeGroup_eq hgroup] at htidy ⊢
  have hothers : ∀ wals ∈ s.flusher.generation ++ s.db.flushQueue.map FlushEntry.wals,
      (l.append s.db.currentWal group.flatten).ops wals = l.ops wals := by
    intro wals hwals
    exact congrArg _ (Ledger.flatMap_update (h.currentWal_not_mem hwals) l.logs _)
  refine ⟨htidy,h.listed.frame htidy.db.placed rfl rfl,h.numbered,hlogs,?_,?_,?_,?_,?_⟩
  · intro n hn
    have hnames := s.db.disk.wals.names_update s.db.currentWal (· ++ walRecord (encodeGroup group))
    exact h.below n (hnames ▸ hn)
  · change Holds (applyGroup s.db.memtable.table s.db.seq group).chain
      (((s.db.obsoleteWals++[s.db.currentWal]).flatMap (l.append s.db.currentWal group.flatten).logs).map Stamped.op)
    rw [Ledger.flatMap_logs_append h.currentWal_not_obsolete,map_append,map_op_stamp,applyGroup_eq]
    exact MemTable.holds_putOps group.flatten (fun e he => Nat.lt_succ_of_le (h.seqs e he)) h.active
  · intro e he
    rcases seq_mem_opSeqs he with he | he
    · exact (h.seqs e he).trans (Nat.le_add_right _ _)
    · exact (mem_opSeqs.mp he).2
  · intro entry hentry
    rw [hothers entry.wals (mem_append_right _ (mem_map_of_mem hentry))]
    exact h.queue entry hentry
  · exact h.flusher.congr fun wals hwals => hothers wals (mem_append_left _ hwals)

theorem Logged.freeze (htidy : Tidy { s with db := s.db.freeze }) :
    Logged (l.createWal s.db.version.nextFileNumber) { s with db := s.db.freeze } := by
  have hgens := s.generations_freeze
  have hlogs := h.logs.create h.below
  have hothers : ∀ wals ∈ s.generations, (l.createWal s.db.version.nextFileNumber).ops wals = l.ops wals := by
    intro wals hwals
    exact congrArg _ (Ledger.flatMap_update (h.next_not_mem hwals) l.logs _)
  refine ⟨htidy,h.listed.freeze,h.numbered,hgens ▸ hlogs,?_,?_,fun e he => (by cases he),?_,?_⟩
  · intro n hn
    change n ∈ (s.db.disk.apply (.wal (.create s.db.version.nextFileNumber))).wals.names at hn
    rw [hlogs.names,flatten_append,flatten_singleton,← h.logs.names] at hn
    rcases mem_append.mp hn with hn | hn
    · exact (h.below n hn).trans (Nat.lt_succ_self _)
    · rw [mem_singleton.mp hn]
      exact Nat.lt_succ_self _
  · have hnew : (l.createWal s.db.version.nextFileNumber).ops [s.db.version.nextFileNumber] = [] := by
      simp [Ledger.ops,Ledger.createWal]
    change Holds [] ((l.createWal s.db.version.nextFileNumber).ops [s.db.version.nextFileNumber])
    rw [hnew]
    exact holds_nil
  · intro entry hentry
    rcases mem_append.mp hentry with hentry | hentry
    · rw [hothers entry.wals (by simpa [generations,DBImpl.waitingWals] using .inr (.inl ⟨entry,hentry,rfl⟩))]
      exact h.queue entry hentry
    · rw [mem_singleton.mp hentry]
      change Holds s.db.memtable.table.chain ((l.createWal s.db.version.nextFileNumber).ops s.db.activeWals)
      rw [hothers s.db.activeWals (by simp [generations,DBImpl.waitingWals])]
      exact h.active
  · exact h.flusher.congr fun wals hwals => hothers wals (mem_append_left _ hwals)

theorem Logged.write {group : WriteGroup} (hsize : (encodeGroup group).length<2^32)
    (hwhole : WholeRecords ((s.db.disk.wals.get s.db.currentWal).getD [])) :
    Logged (l.step s (.write group)) { s with db := s.db.doWriteGroup group } := by
  have htidy := h.tidy.write group
  rw [Ledger.step]
  cases hgroup : group.isEmpty with
  | true =>
    rw [DBImpl.doWriteGroup,hgroup,if_pos rfl,if_pos rfl]
    exact h
  | false =>
    have hlogged := h.writeGroup hgroup hsize hwhole
    have hnext : (s.db.writeGroup group).version.nextFileNumber = s.db.version.nextFileNumber := by
      rw [(s.db.writeGroup_frame group).2.1]
    rw [DBImpl.doWriteGroup,hgroup,DBImpl.maybeFlush] at htidy ⊢
    by_cases hfull : (s.db.writeGroup group).shouldFlush = true
    · rw [if_pos hfull] at htidy ⊢
      rw [if_pos hfull,← hnext]
      exact hlogged.freeze htidy
    · rw [if_neg hfull,if_neg hfull]
      exact hlogged

end Write

end Threads
end TitanKV.Minikv
