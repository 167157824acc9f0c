import TitanKV.Minikv.ChronicleLogs
import TitanKV.Minikv.Filing

/-! The tables while the threads work: every step keeps the order of the versions of each key. A merge
goes on while others write and flush, so what it has chosen must stay as new as everything deeper. -/
namespace TitanKV.Minikv
open List Function

/-- A table that is about to be listed has the age of its MemTable. -/
def FlushThread.Aged (l : Ledger) (k : Bytes) : FlushThread → Prop
  | listing entry path => l.ages path k = (l.times k entry.wals).getLast?.getD 0
  | _ => True

/-- What a merge has chosen of its sources. -/
def CompactionThread.Aged (l : Ledger) (k : Bytes) (db : DBImpl) : CompactionThread → Prop
  | reading level sources _ _ | creating level sources _ _ | building level sources _ _ =>
    Chosen l k db.disk db.version.getLevelFiles level sources
  | listing level sources newFile merged =>
    Chosen l k db.disk db.version.getLevelFiles level sources ∧ ((newest merged.entries k).isSome = true →
      ∃ c ∈ (db.disk.holders k sources).argmax (db.disk.rank k), l.ages newFile k = l.ages c k)
  | _ => True

/-- The files and threads as far as one key is concerned. -/
structure Threads.Recent (l : Ledger) (k : Bytes) (s : Threads) : Prop where
  filed : Filed l k s.db.disk s.db.version.getLevelFiles s.generations
  flusher : s.flusher.Aged l k
  compactor : s.compactor.Aged l k s.db

section Frames
variable {l l' : Ledger} {k : Bytes} {db db' : DBImpl}

/-- A merge is not disturbed by what leaves its sources, its result and the deeper levels alone. -/
lemma CompactionThread.Aged.frame {c : CompactionThread} (h : c.Aged l k db) (hc : c.Sound db)
    (hfiles : ∀ i, 0 < i → db'.version.getLevelFiles i = db.version.getLevelFiles i)
    (hlisted : ∀ i, ∀ path ∈ db.version.getLevelFiles i,
      db'.disk.entriesOf path = db.disk.entriesOf path ∧ l'.ages path k = l.ages path k)
    (htarget : ∀ path, c.target = some path → l'.ages path k = l.ages path k) : c.Aged l' k db' := by
  have hchosen : ∀ {level : ℕ} {sources : List TablePath}, Merging db level sources →
      Chosen l k db.disk db.version.getLevelFiles level sources →
      Chosen l' k db'.disk db'.version.getLevelFiles level sources := by
    intro level sources hm h
    exact h.frame (fun path hp => hlisted level path (hm.listed.subset hp)) (fun i hi => hfiles i (by omega)) hlisted
  cases c with
  | waiting | retracting level sources | unlinking paths => trivial
  | reading level sources rest all => exact hchosen hc.1 h
  | creating level sources newFile merged | building level sources newFile merged => exact hchosen hc.toMerging h
  | listing level sources newFile merged =>
    have hsources : ∀ path ∈ sources, db'.disk.entriesOf path = db.disk.entriesOf path ∧
      l'.ages path k = l.ages path k :=
      fun path hp => hlisted level path (hc.1.listed.subset hp)
    refine ⟨hchosen hc.1.toMerging h.1,?_⟩
    intro hsome
    obtain ⟨c,hmem,hage⟩ := h.2 hsome
    refine ⟨c,by rw [Disk.argmax_holders_congr fun path hp => (hsources path hp).1]; exact hmem,?_⟩
    rw [htarget newFile rfl,(hsources c (Disk.mem_holders.mp (argmax_mem hmem)).1).2]
    exact hage

lemma FlushThread.Aged.congr {f : FlushThread} (h : f.Aged l k) (hages : l'.ages = l.ages)
    (htimes : ∀ wals ∈ f.generation, l'.times k wals = l.times k wals) : f.Aged l' k := by
  cases f with
  | listing entry path =>
    rw [FlushThread.Aged,hages,htimes entry.wals (by simp [FlushThread.generation])]
    exact h
  | _ => trivial

end Frames

namespace Ledger
variable (l : Ledger) (s : Threads) (path : TablePath)

lemma step_flush_of_ne (h : s.flusher.target ≠ some path) :
    (l.step s .flush).ages path = l.ages path ∧ (l.step s .flush).outdated path = l.outdated path := by
  rw [step]
  split
  · rename_i entry p hf
    have hne : path ≠ p := by
      rintro rfl
      rw [hf] at h
      exact h rfl
    exact ⟨update_of_ne hne _ _,update_of_ne hne _ _⟩
  · exact ⟨rfl,rfl⟩

lemma ages_compact (h : s.compactor.target ≠ some path) : (l.step s .compact).ages path = l.ages path := by
  rw [step]
  split
  · rename_i level sources newFile merged hc
    have hne : path ≠ newFile := by
      rintro rfl
      rw [hc] at h
      exact h rfl
    exact update_of_ne hne _ _
  · split <;> rfl
  · rfl

lemma outdated_compact (h : s.compactor.target ≠ some path) {k : Bytes} (hout : l.outdated path k = true) :
    (l.step s .compact).outdated path k = true := by
  rw [step]
  split
  · rename_i level sources newFile merged hc
    have hne : path ≠ newFile := by
      rintro rfl
      rw [hc] at h
      exact h rfl
    have hsame : (l.merge s.db.disk sources newFile merged).outdated path = l.outdated path :=
      update_of_ne hne _ _
    rw [hsame]
    exact hout
  · split
    · exact hout
    · simp [publish,hout]
  · exact hout

end Ledger

namespace Threads
variable {s s' : Threads} {l l' : Ledger} {k : Bytes}

lemma getLevelFiles_of_levels {v v' : Version} (h : v'.levels = v.levels) : v'.getLevelFiles = v.getLevelFiles := by
  funext i
  rw [Version.getLevelFiles,h]
  rfl

lemma times_of_logs (h : l'.logs = l.logs) : l'.times = l.times := by
  funext k wals
  rw [Ledger.times,h]
  rfl

lemma Recent.filed_quiet (h : s.Recent l k) (hq : s.Quiet s') (hlogs : l'.logs = l.logs)
    (hclock : l'.clock = l.clock)
    (hages : ∀ i, ∀ path ∈ s.db.version.getLevelFiles i, l'.ages path k = l.ages path k)
    (hout : ∀ i, ∀ path ∈ s.db.version.getLevelFiles i, l.outdated path k = true → l'.outdated path k = true) :
    Filed l' k s'.db.disk s'.db.version.getLevelFiles s'.generations := by
  rw [getLevelFiles_of_levels hq.levels]
  refine h.filed.frame (fun i => suffix_rfl) hq.entries hages hout hclock.ge ?_
  intro t _ hb
  rw [times_of_logs hlogs]
  rcases hq.generations with heq | heq
  · rw [heq]
    exact hb
  · rw [heq] at hb
    exact hb.next

lemma flush_frame (h : s.Tidy) (hstep : s.flushStep = some s') :
    s'.compactor = s.compactor ∧ (∀ i, 0 < i → s'.db.version.getLevelFiles i = s.db.version.getLevelFiles i) ∧
      ∀ i, ∀ path ∈ s.db.version.getLevelFiles i, s'.db.disk.entriesOf path = s.db.disk.entriesOf path := by
  have hcompactor : s'.compactor = s.compactor := by
    obtain ⟨db,f,c⟩ := s
    cases flushStep_cases hstep <;> rfl
  refine ⟨hcompactor,?_⟩
  cases hbusy : s.flusher.busy with
  | false =>
    have hq := quiet_flush h hbusy hstep
    exact ⟨fun i _ => congrFun (getLevelFiles_of_levels hq.levels) i,hq.entries⟩
  | true =>
    obtain ⟨db,f,c⟩ := s
    cases flushStep_cases hstep with
    | list entry path =>
      refine ⟨?_,fun _ _ _ => rfl⟩
      intro i hi
      change (db.version.addLevelFile path.level path).getLevelFiles i = _
      rw [Version.getLevelFiles_addLevelFile,if_neg]
      have hlevel : path.level = 0 := h.flusher.1.2
      omega
    | unlink _ _ | drop _ _ _ => exact ⟨fun _ _ => rfl,fun _ _ _ => rfl⟩
    | _ => cases hbusy

section Flush
variable (hl : s.Logged l) (h : s.Recent l k)
include hl h

omit h in
lemma Recent.ages_listed_flush (i : ℕ) {path : TablePath} (hpath : path ∈ s.db.version.getLevelFiles i) :
    (l.step s .flush).ages path = l.ages path ∧ (l.step s .flush).outdated path = l.outdated path :=
  l.step_flush_of_ne s path fun ht => (hl.tidy.flusher.target_level ht).1.ne hl.tidy.db.placed hpath rfl

lemma Recent.flusher_flush (hstep : s.flushStep = some s') : s'.flusher.Aged (l.step s .flush) k := by
  have htimes := times_of_logs (logs_step l s (e := .flush) fun _ heq => by cases heq).1
  obtain ⟨db,f,c⟩ := s
  cases flushStep_cases hstep with
  | build entry path => exact congrFun (update_self path _ l.ages) k
  | _ => trivial

lemma Recent.filed_flush (hstep : s.flushStep = some s') :
    Filed (l.step s .flush) k s'.db.disk s'.db.version.getLevelFiles s'.generations := by
  cases hbusy : s.flusher.busy with
  | false =>
    obtain ⟨hlogs,hclock⟩ := logs_step l s (e := .flush) fun _ heq => by cases heq
    refine h.filed_quiet (quiet_flush hl.tidy hbusy hstep) hlogs hclock ?_ ?_
    · exact fun i path hp => congrFun (Recent.ages_listed_flush hl i hp).1 k
    · exact fun i path hp hout => by rw [(Recent.ages_listed_flush hl i hp).2]; exact hout
  | true =>
    -- a WAL file that is unlinked is the first of the oldest generation
    have hunlink : ∀ {n : ℕ} {wals : List ℕ} {later : List (List ℕ)}, s.generations = (n::wals)::later →
        Filed l k (s.db.disk.apply (.wal (.unlink n))) s.db.version.getLevelFiles (wals::later) := by
      intro n wals later hgens
      refine h.filed.frame (fun i => suffix_rfl) (fun _ _ _ => rfl) (fun _ _ _ => rfl) (fun _ _ _ hp => hp) le_rfl ?_
      intro t _ hb
      rw [hgens] at hb
      exact hb.drop_front ⟨l.times k [n],(l.times_append k [n] wals).symm⟩
    obtain ⟨db,f,c⟩ := s
    cases flushStep_cases hstep with
    | list entry path =>
      have hfiles : ∀ i, (db.version.addLevelFile path.level path).getLevelFiles i =
          if 0 = i then db.version.getLevelFiles i ++ [path] else db.version.getLevelFiles i := by
        intro i
        rw [Version.getLevelFiles_addLevelFile,hl.tidy.flusher.1.2]
      have hlast : db.disk.Has k path = true → l.ages path k ∈ (l.times k entry.wals).getLast? := by
        intro hhas
        have hage : l.ages path k = (l.times k entry.wals).getLast?.getD 0 := h.flusher
        have hsome : (newest entry.memtable.table.chain k).isSome = true := by
          rw [← hl.tidy.flusher.2]
          exact hhas
        have hne := (Ledger.isSome_newest_iff hl.flusher).mp hsome
        rw [hage,getLast?_eq_some_getLast hne]
        rfl
      exact h.filed.flush rfl hfiles hlast (hl.logs.pairwise_times k) fun u hu => hl.logs.lt_clock mem_cons_self hu
    | unlink _ _ | drop _ _ _ => exact hunlink rfl
    | _ => cases hbusy

theorem Recent.flush (hstep : s.flushStep = some s') : s'.Recent (l.step s .flush) k := by
  obtain ⟨hc,hfiles,hentries⟩ := flush_frame hl.tidy hstep
  refine ⟨Recent.filed_flush hl h hstep,Recent.flusher_flush hl h hstep,?_⟩
  rw [hc]
  refine h.compactor.frame hl.tidy.compactor hfiles ?_ ?_
  · exact fun i path hp => ⟨hentries i path hp,congrFun (Recent.ages_listed_flush hl i hp).1 k⟩
  · intro path ht
    have hne : s.flusher.target ≠ some path :=
      fun hf => (hl.tidy.compactor.target_level ht).2 (hl.tidy.flusher.target_level hf).2
    exact congrFun (l.step_flush_of_ne s path hne).1 k

end Flush

lemma Recent.merge {level : ℕ} (h : s.Recent l k) (hstep : s.step (.merge level) = some s') : s'.Recent l k := by
  obtain ⟨-,-,rfl⟩ := merge_eq hstep
  exact ⟨h.filed,h.flusher,h.filed.chosen level⟩

section Compact
variable (hl : s.Logged l)
include hl

lemma Recent.listed_ne_target {i : ℕ} {path : TablePath} (hpath : path ∈ s.db.version.getLevelFiles i) :
    s.compactor.target ≠ some path :=
  fun ht => (hl.tidy.compactor.target_level ht).1.ne hl.tidy.db.placed hpath rfl

/-- What the ledger says of the merged table is the age of the source that was chosen. -/
lemma ages_merge {level : ℕ} {sources : List TablePath} {newFile : TablePath} {merged : SSTable}
    (hinto : MergedInto s.db level sources newFile merged) (hsome : (newest merged.entries k).isSome = true) :
    ∃ c ∈ (s.db.disk.holders k sources).argmax (s.db.disk.rank k),
      (l.merge s.db.disk sources newFile merged).ages newFile k =
        (l.merge s.db.disk sources newFile merged).ages c k := by
  obtain ⟨e,he⟩ := Option.isSome_iff_exists.mp hsome
  have hkept := he
  rw [hinto.merged,newest_merged] at hkept
  split at hkept
  · cases hkept
  · obtain ⟨hsorted,-⟩ := Option.filter_eq_some_iff.mp hkept
    rw [newest_sortedEntries] at hsorted
    obtain ⟨c,hc,hnewest⟩ := Option.bind_eq_some_iff.mp hsorted
    refine ⟨c,hc,?_⟩
    have hfind := find?_of_argmax hc hnewest
    have hlisted := hinto.listed.subset (Disk.mem_holders.mp (argmax_mem hc)).1
    have hne : c ≠ newFile := hinto.unlisted.ne hl.tidy.db.placed hlisted
    have hnew : (l.merge s.db.disk sources newFile merged).ages newFile k = l.ages c k := by
      rw [Ledger.merge,Ledger.build]
      dsimp only
      rw [update_self,he,hfind]
    have hold : (l.merge s.db.disk sources newFile merged).ages c = l.ages c := update_of_ne hne _ _
    rw [hnew,hold]

variable (h : s.Recent l k)
include h

/-- The merge chooses when it begins and dates its table when that is complete. -/
lemma Recent.compactor_compact (hstep : s.compactStep = some s') :
    s'.compactor.Aged (l.step s .compact) k s'.db := by
  obtain ⟨db,f,c⟩ := s
  have hages : ∀ i, ∀ path ∈ db.version.getLevelFiles i,
      (l.step ⟨db,f,c⟩ .compact).ages path k = l.ages path k :=
    fun i path hp => congrFun (l.ages_compact _ path (Recent.listed_ne_target hl hp)) k
  have hdb := hl.tidy.db
  have hc := hl.tidy.compactor
  have haged := h.compactor
  cases compactStep_cases hstep with
  | read _ _ _ _ _ | number _ _ _ => exact haged
  | create level sources newFile merged =>
    exact Chosen.frame haged
      (fun path hp =>
        ⟨entriesOf_of_unlisted (.create newFile) hdb.placed hc.unlisted level (hc.listed.subset hp),rfl⟩)
      (fun _ _ => rfl) fun i path hp => ⟨entriesOf_of_unlisted (.create newFile) hdb.placed hc.unlisted i hp,rfl⟩
  | build level sources newFile merged =>
    have hentries : ∀ i, ∀ path ∈ db.version.getLevelFiles i,
        (db.disk.apply (.table (.complete newFile merged))).entriesOf path = db.disk.entriesOf path :=
      fun i path hp => entriesOf_of_unlisted (.complete newFile merged) hdb.placed hc.unlisted i hp
    refine ⟨Chosen.frame haged (fun path hp => ⟨hentries level path (hc.listed.subset hp),
      hages level path (hc.listed.subset hp)⟩) (fun _ _ => rfl) fun i path hp =>
        ⟨hentries i path hp,hages i path hp⟩,?_⟩
    intro hsome
    obtain ⟨c,hmem,hage⟩ := ages_merge hl hc hsome
    refine ⟨c,?_,hage⟩
    have hsame := Disk.argmax_holders_congr (k := k) fun path hp => hentries level path (hc.listed.subset hp)
    exact hsame ▸ hmem
  | _ => trivial

lemma Recent.filed_compact (hstep : s.compactStep = some s') :
    Filed (l.step s .compact) k s'.db.disk s'.db.version.getLevelFiles s'.generations := by
  cases hbusy : s.compactor.busy with
  | false =>
    obtain ⟨hlogs,hclock⟩ := logs_step l s (e := .compact) fun _ heq => by cases heq
    refine h.filed_quiet (quiet_compact hl.tidy hbusy hstep) hlogs hclock ?_ ?_
    · exact fun i path hp => congrFun (l.ages_compact s path (Recent.listed_ne_target hl hp)) k
    · exact fun i path hp hout => l.outdated_compact s path (Recent.listed_ne_target hl hp) hout
  | true =>
    obtain ⟨db,f,c⟩ := s
    cases compactStep_cases hstep with
    | list level sources newFile merged hkept =>
      rw [Ledger.step]
      dsimp only
      rw [if_neg hkept]
      obtain ⟨hinto,hentries⟩ := hl.tidy.compactor
      obtain ⟨hchosen,hage⟩ := h.compactor
      obtain ⟨newer,hnewer⟩ := hinto.listed
      have hfiles : ∀ i, (db.version.addLevelFile newFile.level newFile).getLevelFiles i =
          if level+1 = i then db.version.getLevelFiles i ++ [newFile] else db.version.getLevelFiles i := by
        intro i
        rw [Version.getLevelFiles_addLevelFile,hinto.deeper]
      have hmerged : db.disk.Has k newFile = true → ∃ c ∈ (db.disk.holders k sources).argmax (db.disk.rank k),
          l.ages newFile k = l.ages c k := by
        intro hhas
        refine hage ?_
        rw [← hentries]
        exact hhas
      exact h.filed.publish hnewer.symm rfl hfiles hchosen hmerged
    | discard level sources newFile merged hempty => simp [CompactionThread.busy,hempty] at hbusy
    | retract level sources =>
      have hmerging : Merging db level sources := hl.tidy.compactor.1
      obtain ⟨newer,hnewer⟩ := hmerging.listed
      refine h.filed.frame ?_ ?_ (fun _ _ _ => rfl) (fun _ _ _ hp => hp) le_rfl fun _ _ hb => hb
      · intro i
        change (db.version.removeLevelFiles level sources).getLevelFiles i <:+ db.version.getLevelFiles i
        rw [Version.getLevelFiles_removeLevelFiles]
        split
        · rename_i hi
          subst hi
          have hnodup : (db.version.getLevelFiles level).Nodup := hl.listed.distinct level
          rw [← hnewer,nodup_append] at hnodup
          have hrest : (db.version.getLevelFiles level).filter (fun path => path ∉ sources) = newer := by
            rw [← hnewer,filter_append,filter_eq_nil_iff.mpr (by simp),nil_append]
            apply filter_eq_self.mpr
            intro path hp
            simpa using fun hsource => hnodup.2.2 path hsource path hp rfl
          rw [hrest,← hnewer]
          exact suffix_append _ _
        · exact suffix_rfl
      · intro i path _
        exact DBImpl.entriesOf_records db.disk (removeRecords db.version.levels level sources) path
    | _ => cases hbusy

theorem Recent.compact (hstep : s.compactStep = some s') : s'.Recent (l.step s .compact) k := by
  refine ⟨Recent.filed_compact hl h hstep,?_,Recent.compactor_compact hl h hstep⟩
  rw [flusher_compactStep hstep]
  have htimes := times_of_logs (logs_step l s (e := .compact) fun _ heq => by cases heq).1
  cases hf : s.flusher with
  | listing entry path =>
    have hne : s.compactor.target ≠ some path :=
      fun ht => (hl.tidy.compactor.target_level ht).2 (hl.tidy.flusher.target_level (by rw [hf]; rfl)).2
    have haged := h.flusher
    rw [hf,FlushThread.Aged] at haged
    rw [FlushThread.Aged,htimes,l.ages_compact s path hne]
    exact haged
  | _ => trivial

end Compact

section Write
variable (hl : s.Logged l)
include hl

lemma behind_append (ops : List BatchOp) {t : ℕ} (ht : t<l.clock) (h : Behind t (s.generations.map (l.times k))) :
    Behind t (s.generations.map ((l.append s.db.currentWal ops).times k)) := by
  have hgens : s.generations = (s.flusher.generation ++ s.db.flushQueue.map FlushEntry.wals)++[s.db.activeWals] :=
    (append_assoc _ _ _).symm
  have hold : (s.flusher.generation ++ s.db.flushQueue.map FlushEntry.wals).map
        ((l.append s.db.currentWal ops).times k) =
      (s.flusher.generation ++ s.db.flushQueue.map FlushEntry.wals).map (l.times k) := by
    apply map_congr_left
    intro wals hwals
    exact Ledger.times_congr (Ledger.flatMap_update (hl.currentWal_not_mem hwals) l.logs _)
  have hactive : (l.append s.db.currentWal ops).times k s.db.activeWals = l.times k s.db.activeWals ++
      ((stamp l.clock ops).filter fun s => s.op.key = k).map Stamped.time := by
    rw [Ledger.times,DBImpl.activeWals,Ledger.flatMap_logs_append hl.currentWal_not_obsolete,filter_append,
      map_append]
    rfl
  rw [hgens,map_append,map_singleton] at h ⊢
  rw [hold,hactive]
  refine h.append ?_
  intro u hu
  obtain ⟨x,hx,rfl⟩ := mem_map.mp hu
  exact ht.trans_le (time_mem_stamp (mem_of_mem_filter hx)).1

lemma behind_createWal {t : ℕ} (h : Behind t (s.generations.map (l.times k))) :
    Behind t ((s.generations++[[s.db.version.nextFileNumber]]).map
      ((l.createWal s.db.version.nextFileNumber).times k)) := by
  have hold : s.generations.map ((l.createWal s.db.version.nextFileNumber).times k) =
      s.generations.map (l.times k) := by
    apply map_congr_left
    intro wals hwals
    exact Ledger.times_congr (Ledger.flatMap_update (hl.next_not_mem hwals) l.logs _)
  have hnew : (l.createWal s.db.version.nextFileNumber).times k [s.db.version.nextFileNumber] = [] := by
    simp [Ledger.times,Ledger.createWal]
  rw [map_append,map_singleton,hold,hnew]
  exact h.extend

variable (h : s.Recent l k)
include h

lemma Recent.writeGroup {group : WriteGroup} (hgroup : group.isEmpty = false) :
    Recent (l.append s.db.currentWal group.flatten) k { s with db := s.db.writeGroup group } := by
  rw [s.db.writeGroup_eq hgroup]
  refine ⟨?_,?_,?_⟩
  · exact h.filed.frame (fun i => suffix_rfl) (fun _ _ _ => rfl) (fun _ _ _ => rfl) (fun _ _ _ hp => hp)
      (Nat.le_add_right _ _) fun t ht hb => behind_append hl group.flatten ht hb
  · exact h.flusher.congr rfl fun wals hwals => Ledger.times_congr
      (Ledger.flatMap_update (hl.currentWal_not_mem (mem_append_left _ hwals)) l.logs _)
  · exact h.compactor.frame hl.tidy.compactor (fun _ _ => rfl) (fun _ _ _ => ⟨rfl,rfl⟩) fun _ _ => rfl

lemma Recent.freeze : Recent (l.createWal s.db.version.nextFileNumber) k { s with db := s.db.freeze } := by
  refine ⟨?_,?_,?_⟩
  · rw [generations_freeze]
    exact h.filed.frame (fun i => suffix_rfl) (fun _ _ _ => rfl) (fun _ _ _ => rfl) (fun _ _ _ hp => hp) le_rfl
      fun t _ hb => behind_createWal hl hb
  · exact h.flusher.congr rfl fun wals hwals => Ledger.times_congr
      (Ledger.flatMap_update (hl.next_not_mem (mem_append_left _ hwals)) l.logs _)
  · exact h.compactor.frame hl.tidy.compactor (fun _ _ => rfl) (fun _ _ _ => ⟨rfl,rfl⟩) fun _ _ => rfl

theorem Recent.write {group : WriteGroup} (hsize : (encodeGroup group).length<2^32)
    (hwhole : WholeRecords ((s.db.disk.wals.get s.db.currentWal).getD [])) :
    Recent (l.step s (.write group)) k { s with db := s.db.doWriteGroup group } := by
  rw [Ledger.step]
  cases hgroup : group.isEmpty with
  | true =>
    rw [DBImpl.doWriteGroup,hgroup,if_pos rfl,if_pos rfl]
    exact h
  | false =>
    have hlogged := hl.writeGroup hgroup hsize hwhole
    have hrecent := Recent.writeGroup hl h hgroup
    have hnext : (s.db.writeGroup group).version.nextFileNumber = s.db.version.nextFileNumber := by
      rw [(s.db.writeGroup_frame group).2.1]
    rw [DBImpl.doWriteGroup,hgroup,DBImpl.maybeFlush]
    by_cases hfull : (s.db.writeGroup group).shouldFlush = true
    · rw [if_pos hfull,if_pos hfull,← hnext]
      exact Recent.freeze hlogged hrecent
    · rw [if_neg hfull,if_neg hfull]
      exact hrecent

end Write

end Threads
end TitanKV.Minikv
