import TitanKV.Library.Leveled
import TitanKV.Minikv.Sequence

/-! The age order of a session. Deeper levels hold older entries than shallower ones, files
added later hold newer entries than files added earlier, and what is in memory is newer than
every file. Writes, freezes, flushes and compactions keep this order. -/
namespace TitanKV.Minikv
open List Function

/-- Every entry of the first run is older than every entry of the second. -/
def Before (a b : List Entry) : Prop := ∀ x ∈ a, ∀ y ∈ b, x.key.seq<y.key.seq

namespace DBImpl

def runsAt (db : DBImpl) (level : ℕ) : List (List Entry) :=
  (filesAt db.version.levels level).map fun m => db.disk.entriesOf m.path

def memRuns (db : DBImpl) : List (List Entry) :=
  db.immutableList.map (fun m => m.table.chain) ++ [db.memtable.table.chain]

@[simp] theorem runsAt_writeGroup (db : DBImpl) (group : WriteGroup) :
    (db.writeGroup group).runsAt = db.runsAt := by
  rw [writeGroup]
  split
  · rfl
  · funext i
    rw [runsAt,entriesOf_appendOps]
    rfl

@[simp] theorem runsAt_freeze (db : DBImpl) : db.freeze.runsAt = db.runsAt := by
  funext i
  rfl

/-- Files are where their paths say, under numbers that are taken. -/
def Placed (db : DBImpl) : Prop := ∀ i, ∀ m ∈ filesAt db.version.levels i,
  m.path.level = i ∧ m.path.number<db.version.nextFileNumber

lemma liveEntry_of_mem_runsAt {db : DBImpl} {i : ℕ} {es : List Entry} (hes : es ∈ db.runsAt i)
    {e : Entry} (he : e ∈ es) : db.LiveEntry e := by
  obtain ⟨m,hm,rfl⟩ := mem_map.mp hes
  exact ⟨i,m,hm,he⟩

variable {queue : List FlushEntry}

theorem Flushed.placed {db db' : DBImpl} {entry : FlushEntry}
    (h : Flushed db entry queue db') (hp : db.Placed) : db'.Placed := by
  intro i m hm
  have hold : ∀ m ∈ filesAt db.version.levels i,
      m.path.level = i ∧ m.path.number<db'.version.nextFileNumber :=
    fun m hm => (hp i m hm).imp_right fun hn => hn.trans_le h.next
  rw [h.files] at hm
  split at hm
  · rename_i hi
    rcases mem_append.mp hm with hm | hm
    · exact hold m hm
    · rw [mem_singleton] at hm
      subst hm
      exact ⟨hi.1,h.taken hi.2⟩
  · exact hold m hm

theorem Flushed.runsAt {db db' : DBImpl} {entry : FlushEntry}
    (h : Flushed db entry queue db') (hp : db.Placed) :
    db'.runsAt = if entry.memtable.table.chain = [] then db.runsAt
      else Function.update db.runsAt 0 (db.runsAt 0 ++ [entry.memtable.table.chain]) := by
  have hold : ∀ i, ∀ m ∈ filesAt db.version.levels i,
      db'.disk.entriesOf m.path = db.disk.entriesOf m.path := by
    intro i m hm
    rw [h.entries,if_neg]
    rintro ⟨heq,-⟩
    have hn := (hp i m hm).2
    rw [heq] at hn
    exact lt_irrefl _ hn
  have hmap : ∀ i, (filesAt db.version.levels i).map (fun m => db'.disk.entriesOf m.path) = db.runsAt i :=
    fun i => map_congr_left (hold i)
  funext i
  rw [DBImpl.runsAt,h.files]
  by_cases hchain : entry.memtable.table.chain = []
  · rw [if_neg fun hz => hz.2 hchain,if_pos hchain,hmap]
  · rw [if_neg hchain]
    by_cases hi : i = 0
    · subst hi
      rw [if_pos ⟨rfl,hchain⟩,map_append,hmap,update_self,map_singleton,h.entries,
        if_pos ⟨rfl,hchain⟩]
    · rw [if_neg fun hz => hi hz.1.symm,hmap,update_of_ne hi]

section Merge
variable {db db' : DBImpl} {src : ℕ} (h : Merged db src (db.version.getLevelFiles src) db')
include h

theorem Merged.files_src : filesAt db'.version.levels src = [] := by
  rw [h.files,if_pos rfl,filter_eq_nil_iff]
  intro m hm
  simpa [Version.getLevelFiles] using ⟨m,hm,rfl⟩

theorem Merged.placed (hp : db.Placed) : db'.Placed := by
  intro i m hm
  have hold : ∀ m ∈ filesAt db.version.levels i,
      m.path.level = i ∧ m.path.number<db'.version.nextFileNumber :=
    fun m hm => (hp i m hm).imp_right fun hn => hn.trans h.next
  rw [h.files] at hm
  split at hm
  · exact hold m (mem_of_mem_filter hm)
  · split at hm
    · rename_i hi
      rcases mem_append.mp hm with hm | hm
      · exact hold m hm
      · rw [mem_singleton] at hm
        subst hm
        exact ⟨hi.1,h.next⟩
    · exact hold m hm

/-- A merge empties the source level and adds its run at the end of the next one. -/
theorem Merged.runsAt (hp : db.Placed) :
    db'.runsAt = if (mergedTable db.disk (db.version.getLevelFiles src)).entries = [] then
        Function.update db.runsAt src []
      else Function.update (Function.update db.runsAt src []) (src+1)
        (db.runsAt (src+1) ++ [(mergedTable db.disk (db.version.getLevelFiles src)).entries]) := by
  have hpath : ∀ path ∈ db.version.getLevelFiles src,
      path.level = src ∧ path.number<db.version.nextFileNumber := by
    intro path hpath
    obtain ⟨m,hm,rfl⟩ := mem_map.mp hpath
    exact hp src m hm
  have hold : ∀ i, i ≠ src → (filesAt db.version.levels i).map (fun m => db'.disk.entriesOf m.path) =
      db.runsAt i := by
    intro i hi
    apply map_congr_left
    intro m hm
    obtain ⟨hlevel,hn⟩ := hp i m hm
    rw [h.entries,if_neg,if_neg]
    · intro heq
      rw [heq] at hn
      exact lt_irrefl _ hn
    · intro hsrc
      exact hi (hlevel.symm.trans (hpath _ hsrc).1)
  have hnew : db'.disk.entriesOf ⟨src+1,db.version.nextFileNumber⟩ =
      (mergedTable db.disk (db.version.getLevelFiles src)).entries := by
    rw [h.entries,if_neg,if_pos rfl]
    intro hsrc
    exact lt_irrefl _ (hpath _ hsrc).2
  have hsrc : db'.runsAt src = [] := by rw [DBImpl.runsAt,h.files_src,map_nil]
  funext i
  by_cases hi : i = src
  · subst hi
    rw [hsrc]
    split
    · rw [update_self]
    · rw [update_of_ne (Nat.succ_ne_self i).symm,update_self]
  · rw [DBImpl.runsAt,h.files,if_neg (Ne.symm hi)]
    by_cases hkept : (mergedTable db.disk (db.version.getLevelFiles src)).entries = []
    · rw [if_neg fun hz => hz.2 hkept,if_pos hkept,update_of_ne hi,hold i hi]
    · rw [if_neg hkept]
      by_cases hd : i = src+1
      · subst hd
        rw [if_pos ⟨rfl,hkept⟩,map_append,hold _ hi,map_singleton,hnew,update_self]
      · rw [if_neg fun hz => hd hz.1.symm,hold i hi,update_of_ne hd,update_of_ne hi]

end Merge

lemma exists_run_of_mem_mergedTable {db : DBImpl} {src : ℕ} {e : Entry}
    (he : e ∈ (mergedTable db.disk (db.version.getLevelFiles src)).entries) :
    ∃ es ∈ db.runsAt src, e ∈ es := by
  obtain ⟨m,hm,he⟩ := exists_file_of_mem_mergedTable he
  exact ⟨_,mem_map_of_mem hm,he⟩

/-- Everything stored is in order of age. -/
structure ByAge (db : DBImpl) : Prop where
  placed : db.Placed
  leveled : Leveled Before db.runsAt
  flushed : ∀ i, ∀ run ∈ db.runsAt i, ∀ es ∈ db.memRuns, Before run es
  memory : db.memRuns.Pairwise Before
  queue : db.flushQueue.map FlushEntry.memtable = db.immutableList
  bounded : db.SeqBounded

namespace ByAge
variable {db : DBImpl}

theorem fresh (options : Options) : (DBImpl.fresh options).ByAge := by
  have hfiles : ∀ i, filesAt (DBImpl.fresh options).version.levels i = [] := filesAt_replicate 8
  have hruns : ∀ i, (DBImpl.fresh options).runsAt i = [] := by
    intro i
    rw [runsAt,hfiles,map_nil]
  refine ⟨?_,Leveled.of_empty hruns,?_,pairwise_singleton _ _,rfl,⟨?_,?_,?_⟩⟩
  · intro i m hm
    rw [hfiles] at hm
    cases hm
  · intro i run hrun
    rw [hruns] at hrun
    cases hrun
  · rintro e ⟨i,m,hm,-⟩
    rw [hfiles] at hm
    cases hm
  · intro e he
    cases he
  · intro q hq
    cases hq

lemma seq_le_of_mem_immutable (h : db.ByAge) {m : MemTableRef} (hm : m ∈ db.immutableList)
    {e : Entry} (he : e ∈ m.table.chain) : e.key.seq≤db.seq := by
  rw [← h.queue] at hm
  obtain ⟨q,hq,rfl⟩ := mem_map.mp hm
  exact h.bounded.queued q hq e he

theorem write (h : db.ByAge) (group : WriteGroup) : (db.writeGroup group).ByAge := by
  have hbounded := h.bounded.write group
  have hlevels := db.runsAt_writeGroup group
  by_cases hg : group.isEmpty = true
  · rwa [writeGroup,if_pos hg]
  · rw [writeGroup,if_neg hg] at hbounded hlevels ⊢
    have hnew : ∀ es : List Entry, (∀ e ∈ es, e.key.seq≤db.seq) → Before es db.memtable.table.chain →
        Before es (applyGroup db.memtable.table db.seq group).chain := by
      intro es hle hold x hx y hy
      rcases seq_mem_opSeqs hy with hy | hy
      · exact hold x hx y hy
      · exact (hle x hx).trans_lt (mem_opSeqs.mp hy).1
    refine ⟨h.placed,by rw [hlevels]; exact h.leveled,?_,?_,h.queue,hbounded⟩
    · intro i run hrun es hes
      rw [hlevels] at hrun
      rcases mem_append.mp hes with hes | hes
      · exact h.flushed i run hrun es (mem_append_left _ hes)
      · rw [mem_singleton] at hes
        subst hes
        refine hnew run (fun e he => h.bounded.live e (liveEntry_of_mem_runsAt hrun he)) ?_
        exact h.flushed i run hrun _ (by simp [memRuns])
    · obtain ⟨himm,-,hactive⟩ := pairwise_append.mp h.memory
      refine pairwise_append.mpr ⟨himm,pairwise_singleton _ _,?_⟩
      intro es hes es' hes'
      rw [mem_singleton] at hes'
      subst hes'
      obtain ⟨m,hm,rfl⟩ := mem_map.mp hes
      exact hnew _ (fun e he => h.seq_le_of_mem_immutable hm he) (hactive _ hes _ (by simp))

theorem freeze (h : db.ByAge) : db.freeze.ByAge := by
  have hruns : db.freeze.memRuns = db.memRuns++[[]] := by
    simp only [memRuns,DBImpl.freeze,map_append]
    rfl
  have hlevels := db.runsAt_freeze
  have hempty : ∀ es, Before es [] := fun es x _ y hy => by cases hy
  refine ⟨?_,by rw [hlevels]; exact h.leveled,?_,?_,?_,h.bounded.freeze⟩
  · intro i m hm
    exact (h.placed i m hm).imp_right fun hn => hn.trans (Nat.lt_succ_self _)
  · rw [hlevels,hruns]
    intro i run hrun es hes
    rcases mem_append.mp hes with hes | hes
    · exact h.flushed i run hrun es hes
    · rw [mem_singleton] at hes
      rw [hes]
      exact hempty _
  · rw [hruns]
    refine pairwise_append.mpr ⟨h.memory,pairwise_singleton _ _,?_⟩
    intro es _ es' hes'
    rw [mem_singleton] at hes'
    rw [hes']
    exact hempty es
  · change (db.flushQueue++[_]).map FlushEntry.memtable = db.immutableList++[db.memtable]
    rw [map_append,h.queue]
    rfl

theorem flush (h : db.ByAge) : db.flushNext.ByAge := by
  cases hq : db.flushQueue with
  | nil => rwa [flushNext_nil hq]
  | cons entry queue =>
    have hf := flushNext_cons hq
    obtain ⟨himm,herase⟩ := immutableList_flushNext h.queue hq
    have hruns : db.memRuns = entry.memtable.table.chain::db.flushNext.memRuns := by
      rw [memRuns,memRuns,himm,herase,hf.memtable]
      rfl
    obtain ⟨hentry,hmemory⟩ := pairwise_cons.mp (hruns ▸ h.memory)
    have hmem : ∀ es ∈ db.flushNext.memRuns, es ∈ db.memRuns := by
      intro es hes
      rw [hruns]
      exact mem_cons_of_mem _ hes
    have hpush : ∀ i, ∀ run ∈ db.runsAt i, Before run entry.memtable.table.chain :=
      fun i run hrun => h.flushed i run hrun _ (by simp [hruns])
    refine ⟨hf.placed h.placed,?_,?_,hmemory,by rw [hf.flushQueue,herase],h.bounded.flush⟩
    · rw [hf.runsAt h.placed]
      split
      · exact h.leveled
      · exact h.leveled.push (fun i _ => hpush i) (fun i hi => absurd hi (Nat.not_lt_zero i))
    · intro i run hrun es hes
      rw [hf.runsAt h.placed] at hrun
      split at hrun
      · exact h.flushed i run hrun es (hmem es hes)
      · rcases Leveled.mem_push hrun with hrun | ⟨-,rfl⟩
        · exact h.flushed i run hrun es (hmem es hes)
        · exact hentry es hes

theorem compact (h : db.ByAge) (src : ℕ) : (db.mergeLevel src).2.ByAge := by
  rcases (mergeLevelFiles_cases db src (db.version.getLevelFiles src)).2 with ⟨-,hid⟩ | ⟨-,-,hm⟩
  · rwa [mergeLevel,hid]
  · have hbounded := h.bounded.compact src
    rw [mergeLevel] at hbounded ⊢
    have hruns : (db.mergeLevelFiles src (db.version.getLevelFiles src)).2.memRuns = db.memRuns := by
      rw [memRuns,hm.immutableList,hm.memtable]
      rfl
    have hmem : ∀ i, ∀ run ∈ Function.update db.runsAt src [] i, run ∈ db.runsAt i ∧ i ≠ src := by
      intro i run hrun
      by_cases hi : i = src
      · rw [hi,update_self] at hrun
        cases hrun
      · exact ⟨by rwa [update_of_ne hi] at hrun,hi⟩
    have hdst : Function.update db.runsAt src [] (src+1) = db.runsAt (src+1) :=
      update_of_ne (Nat.succ_ne_self src) _ _
    refine ⟨hm.placed h.placed,?_,?_,by rw [hruns]; exact h.memory,?_,hbounded⟩
    · rw [hm.runsAt h.placed]
      split
      · exact h.leveled.clear src
      · rw [← hdst]
        apply (h.leveled.clear src).push
        · intro i hi run hrun x hx y hy
          obtain ⟨es,hes,hy⟩ := exists_run_of_mem_mergedTable hy
          exact h.leveled.deeper src i hi run (hmem i run hrun).1 es hes x hx y hy
        · intro i hi run hrun x hx y hy
          obtain ⟨es,hes,hx⟩ := exists_run_of_mem_mergedTable hx
          obtain ⟨hrun,hne⟩ := hmem i run hrun
          exact h.leveled.deeper i src (by omega) es hes run hrun x hx y hy
    · intro i run hrun es hes
      rw [hruns] at hes
      rw [hm.runsAt h.placed] at hrun
      split at hrun
      · exact h.flushed i run (hmem i run hrun).1 es hes
      · rw [← hdst] at hrun
        rcases Leveled.mem_push hrun with hrun | ⟨-,rfl⟩
        · exact h.flushed i run (hmem i run hrun).1 es hes
        · intro x hx y hy
          obtain ⟨run,hrun,hx⟩ := exists_run_of_mem_mergedTable hx
          exact h.flushed src run hrun es hes x hx y hy
    · rw [hm.flushQueue,hm.immutableList]
      exact h.queue

theorem run (h : db.ByAge) {events : List Event} (hsession : ∀ e ∈ events, e.inSession = true) :
    (db.run events).ByAge :=
  run_of_session (fun _ group h => h.write group) (fun _ h => h.freeze) (fun _ h => h.flush)
    (fun _ level h => h.compact level) h hsession

end ByAge
end DBImpl
end TitanKV.Minikv
