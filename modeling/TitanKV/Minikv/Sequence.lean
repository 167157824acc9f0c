import TitanKV.Minikv.Session

/-! Sequence numbers across sessions. The counter is rebuilt by counting the operations
replayed from the WAL files; the numbers stored in SSTables are not consulted. -/
namespace TitanKV.Minikv
open List

def opSeqs (base : ℕ) : WriteGroup → List ℕ
  | [] => []
  | batch::group => range' (base+1) batch.length ++ opSeqs (base+batch.length) group

lemma mem_opSeqs {base s : ℕ} {group : WriteGroup} :
    s ∈ opSeqs base group ↔ base<s ∧ s≤base+group.flatten.length := by
  induction group generalizing base with
  | nil => simp [opSeqs]
  | cons batch group ih =>
    rw [opSeqs,mem_append,ih,mem_range'_1,flatten_cons,length_append]
    omega

/-- An entry of the MemTable after a group was there before or has a number of the group. -/
theorem seq_mem_opSeqs {m : MemTable} {base : ℕ} {group : WriteGroup} {e : Entry}
    (h : e ∈ (applyGroup m base group).chain) : e ∈ m.chain ∨ e.key.seq ∈ opSeqs base group := by
  rw [applyGroup_eq] at h
  apply (MemTable.mem_putOps h).imp_right
  rintro ⟨hlo,hhi⟩
  exact mem_opSeqs.mpr ⟨by omega,by omega⟩

namespace DBImpl

def LiveEntry (db : DBImpl) (e : Entry) : Prop :=
  ∃ i, ∃ m ∈ filesAt db.version.levels i, e ∈ db.disk.entriesOf m.path

variable {e : Entry}

lemma Flushed.liveEntry {db db' : DBImpl} {entry : FlushEntry} {queue : List FlushEntry}
    (h : Flushed db entry queue db') (he : db'.LiveEntry e) :
    db.LiveEntry e ∨ e ∈ entry.memtable.table.chain := by
  obtain ⟨i,m,hm,he⟩ := he
  rw [h.entries] at he
  split at he
  · exact .inr he
  · rename_i hpath
    rw [h.files] at hm
    split at hm
    · rename_i hi
      rcases mem_append.mp hm with hm | hm
      · exact .inl ⟨i,m,hm,he⟩
      · rw [mem_singleton] at hm
        subst hm
        exact (hpath ⟨rfl,hi.2⟩).elim
    · exact .inl ⟨i,m,hm,he⟩

lemma exists_file_of_mem_mergedTable {db : DBImpl} {level : ℕ}
    (he : e ∈ (mergedTable db.disk (db.version.getLevelFiles level)).entries) :
    ∃ m ∈ filesAt db.version.levels level, e ∈ db.disk.entriesOf m.path := by
  have hmem := (keepNewest_sublist _ _ _ _).subset he
  rw [sortedEntries,mem_insertionSort,sourceEntries,mem_flatMap] at hmem
  obtain ⟨path,hpath,he⟩ := hmem
  obtain ⟨m,hm,rfl⟩ := mem_map.mp hpath
  exact ⟨m,hm,he⟩

lemma Merged.liveEntry {db db' : DBImpl} {level : ℕ}
    (h : Merged db level (db.version.getLevelFiles level) db') (he : db'.LiveEntry e) :
    db.LiveEntry e := by
  obtain ⟨i,m,hm,he⟩ := he
  rw [h.entries] at he
  split at he
  · cases he
  · split at he
    · exact ⟨level,exists_file_of_mem_mergedTable he⟩
    · rename_i hpath
      rw [h.files] at hm
      split at hm
      · exact ⟨i,m,mem_of_mem_filter hm,he⟩
      · split at hm
        · rcases mem_append.mp hm with hm | hm
          · exact ⟨i,m,hm,he⟩
          · rw [mem_singleton] at hm
            subst hm
            exact (hpath rfl).elim
        · exact ⟨i,m,hm,he⟩

/-- No stored number is above the counter. -/
structure SeqBounded (db : DBImpl) : Prop where
  live : ∀ e, db.LiveEntry e → e.key.seq≤db.seq
  active : ∀ e ∈ db.memtable.table.chain, e.key.seq≤db.seq
  queued : ∀ q ∈ db.flushQueue, ∀ e ∈ q.memtable.table.chain, e.key.seq≤db.seq

namespace SeqBounded
variable {db : DBImpl}

theorem write (h : db.SeqBounded) (group : WriteGroup) : (db.writeGroup group).SeqBounded := by
  rw [writeGroup]
  split
  · exact h
  · have hle : db.seq≤db.seq+group.flatten.length := Nat.le_add_right _ _
    refine ⟨?_,?_,fun q hq e he => (h.queued q hq e he).trans hle⟩
    · rintro e ⟨i,m,hm,he⟩
      rw [entriesOf_appendOps] at he
      exact (h.live e ⟨i,m,hm,he⟩).trans hle
    · intro e he
      rcases seq_mem_opSeqs he with he | he
      · exact (h.active e he).trans hle
      · exact (mem_opSeqs.mp he).2

theorem freeze (h : db.SeqBounded) : db.freeze.SeqBounded where
  live := by
    rintro e ⟨i,m,hm,he⟩
    exact h.live e ⟨i,m,hm,he⟩
  active e he := by cases he
  queued q hq e he := by
    rcases mem_append.mp hq with hq | hq
    · exact h.queued q hq e he
    · rw [mem_singleton] at hq
      subst hq
      exact h.active e he

theorem flush (h : db.SeqBounded) : db.flushNext.SeqBounded := by
  cases hq : db.flushQueue with
  | nil => rwa [flushNext_nil hq]
  | cons entry queue =>
    have hf := flushNext_cons hq
    refine ⟨?_,by rw [hf.memtable,hf.seq]; exact h.active,?_⟩
    · intro e he
      rw [hf.seq]
      rcases hf.liveEntry he with he | he
      · exact h.live e he
      · exact h.queued entry (by simp [hq]) e he
    · rw [hf.flushQueue,hf.seq]
      exact fun q hmem => h.queued q (by simp [hq,hmem])

theorem compact (h : db.SeqBounded) (level : ℕ) : (db.mergeLevel level).2.SeqBounded := by
  rcases (mergeLevelFiles_cases db level (db.version.getLevelFiles level)).2 with ⟨-,hid⟩ | ⟨-,-,hm⟩
  · rwa [mergeLevel,hid]
  · rw [mergeLevel]
    refine ⟨?_,by rw [hm.memtable,hm.seq]; exact h.active,by rw [hm.flushQueue,hm.seq]; exact h.queued⟩
    intro e he
    rw [hm.seq]
    exact h.live e (hm.liveEntry he)

theorem run (h : db.SeqBounded) {events : List Event} (hsession : ∀ e ∈ events, e.inSession = true) :
    (db.run events).SeqBounded :=
  run_of_session (fun _ group h => h.write group) (fun _ h => h.freeze) (fun _ h => h.flush)
    (fun _ level h => h.compact level) h hsession

end SeqBounded

lemma seq_le_step (db : DBImpl) {e : Event} (h : e.inSession = true) : db.seq≤(db.step e).seq := by
  cases e with
  | write group =>
    rw [step,writeGroup]
    split
    · exact le_rfl
    · exact Nat.le_add_right _ _
  | freeze => exact le_rfl
  | flush =>
    rw [step]
    cases hq : db.flushQueue with
    | nil => rw [flushNext_nil hq]
    | cons entry queue => rw [(flushNext_cons hq).seq]
  | compact level =>
    rw [step]
    rcases (mergeLevelFiles_cases db level (db.version.getLevelFiles level)).2 with ⟨-,hid⟩ | ⟨-,-,hm⟩
    · rw [mergeLevel,hid]
    · rw [mergeLevel,hm.seq]
  | reopen => cases h

lemma seq_le_run (db : DBImpl) {events : List Event} (h : ∀ e ∈ events, e.inSession = true) :
    db.seq≤(db.run events).seq := by
  induction events generalizing db with
  | nil => exact le_rfl
  | cons e es ih =>
    exact (db.seq_le_step (h e (by simp))).trans (ih (db.step e) fun x hx => h x (by simp [hx]))

lemma replayed_seq_lt (options : Options) (d : Disk) :
    ∀ e ∈ (recover options d).memtable.table.chain, e.key.seq<(recover options d).seq := by
  have hall : ∀ wals : List (ℕ × Bytes),
      ∀ e ∈ (wals.foldl (fun s w => replayWalFile s w.2) (MemTable.empty,0)).1.chain,
        e.key.seq<(wals.foldl (fun s w => replayWalFile s w.2) (MemTable.empty,0)).2 := by
    intro wals e he
    rw [foldl_replayWalFile_eq] at he ⊢
    rcases MemTable.mem_putOps he with he | ⟨-,hhi⟩
    · cases he
    · exact hhi
  exact hall _

lemma flushQueue_recover (options : Options) (d : Disk) : (recover options d).flushQueue = [] := rfl

/-- Every operation written from now until the next reopen, in whatever state the session
has reached, gets a number above those of all live SSTables and of all replayed entries. -/
def NumbersFresh (db : DBImpl) : Prop :=
  ∀ events : List Event, (∀ e ∈ events, e.inSession = true) →
    ∀ group, ∀ s ∈ opSeqs (db.run events).seq group,
      (∀ e, (db.run events).LiveEntry e → e.key.seq<s) ∧
        ∀ e ∈ db.memtable.table.chain, e.key.seq<s

lemma numbersFresh_recover_iff (o : Options) (d : Disk) :
    (recover o d).NumbersFresh ↔ ∀ e, (recover o d).LiveEntry e → e.key.seq≤(recover o d).seq := by
  have hreplayed := replayed_seq_lt o d
  constructor
  · intro h e he
    have hnext : (recover o d).seq+1 ∈ opSeqs (recover o d).seq [[⟨.put,[],[]⟩]] :=
      mem_opSeqs.mpr ⟨Nat.lt_succ_self _,le_rfl⟩
    exact Nat.le_of_lt_succ ((h [] (by simp) _ _ hnext).1 e he)
  · intro h events hsession group s hs
    have hbound : (recover o d).SeqBounded := by
      refine ⟨h,fun e he => (hreplayed e he).le,?_⟩
      rw [flushQueue_recover]
      simp
    have hlt := (mem_opSeqs.mp hs).1
    refine ⟨fun e he => ((hbound.run hsession).live e he).trans_lt hlt,?_⟩
    intro e he
    exact (hreplayed e he).trans_le (((recover o d).seq_le_run hsession).trans hlt.le)

end DBImpl
end TitanKV.Minikv
