import TitanKV.Minikv.Generations

/-! Reads in a session without compaction. The database refines its generations, and `get`
is right about a key exactly when the order in which it visits them does not matter. -/
namespace TitanKV.Minikv
open Layers List DBImpl

lemma Holds.lookup {es : List Entry} {ops : List BatchOp} (h : Holds es ops) (hes : Ascending es)
    (k : Bytes) : lookup k es = (lastOp ops k).join := by
  rw [lookup_eq hes,← h k]
  cases newest es k <;> rfl

/-- The table behind a listed file holds these operations, and its number is taken. -/
def FileHolds (db : DBImpl) (m : SSTableMeta) (ops : List BatchOp) : Prop :=
  m.path.number<db.version.nextFileNumber ∧ Holds (db.disk.entriesOf m.path) ops

structure Refines (db : DBImpl) (g : Generations) : Prop where
  active : Holds db.memtable.table.chain g.active
  frozen : List.Forall₂ (fun m ops => Holds m.table.chain ops) db.immutableList g.frozen
  flushed : List.Forall₂ (FileHolds db) (filesAt db.version.levels 0) g.flushed
  deeper : ∀ i, 0 < i → filesAt db.version.levels i = []
  queue : db.flushQueue.map FlushEntry.memtable = db.immutableList
  seqs : ∀ e ∈ db.memtable.table.chain, e.key.seq≤db.seq

namespace Refines
variable {db : DBImpl} {g : Generations}

theorem fresh (options : Options) : Refines (fresh options) .start where
  active := holds_nil
  frozen := Forall₂.nil
  flushed := Forall₂.nil
  deeper i _ := filesAt_replicate 8 i
  queue := rfl
  seqs e he := by cases he

section
variable (h : Refines db g)
include h

theorem write (group : WriteGroup) :
    Refines (db.writeGroup group) (g.step (.write group)) := by
  rw [writeGroup]
  split
  · rename_i hg
    rw [isEmpty_iff.mp hg]
    simpa [Generations.step] using h
  · have hlt : ∀ e ∈ db.memtable.table.chain, e.key.seq<db.seq+1 :=
      fun e he => Nat.lt_succ_of_le (h.seqs e he)
    refine ⟨?_,h.frozen,?_,h.deeper,h.queue,?_⟩
    · rw [applyGroup_eq]
      exact MemTable.holds_putOps group.flatten hlt h.active
    · apply h.flushed.imp
      rintro m ops ⟨hn,hm⟩
      refine ⟨hn,?_⟩
      rwa [entriesOf_appendOps]
    · intro e he
      rw [applyGroup_eq] at he
      rcases MemTable.mem_putOps he with he | ⟨_,hhi⟩
      · exact (h.seqs e he).trans (Nat.le_add_right _ _)
      · change e.key.seq ≤ db.seq+group.flatten.length
        omega

theorem freeze : Refines db.freeze (g.step .freeze) where
  active := holds_nil
  frozen := rel_append h.frozen (Forall₂.cons h.active Forall₂.nil)
  flushed := by
    apply h.flushed.imp
    rintro m ops ⟨hn,hm⟩
    exact ⟨hn.trans (Nat.lt_succ_self _),hm⟩
  deeper := h.deeper
  queue := by
    change (db.flushQueue++[_]).map FlushEntry.memtable = db.immutableList++[db.memtable]
    rw [map_append,h.queue]
    rfl
  seqs e he := by cases he

theorem flush : Refines db.flushNext (g.step .flush) := by
  obtain ⟨flushed,frozen,active⟩ := g
  cases hq : db.flushQueue with
  | nil =>
    have himm : db.immutableList = [] := by rw [← h.queue,hq,map_nil]
    have hfrozen := h.frozen
    rw [himm] at hfrozen
    cases hfrozen
    rw [flushNext_nil hq]
    exact h
  | cons entry queue =>
    have hf := flushNext_cons hq
    obtain ⟨himm,herase⟩ := immutableList_flushNext h.queue hq
    have hfrozen := h.frozen
    rw [himm] at hfrozen
    cases hfrozen with
    | cons hentry hrest =>
      rename_i ops frozen
      have hfiles : List.Forall₂ (FileHolds db.flushNext) (filesAt db.version.levels 0) flushed := by
        apply h.flushed.imp
        rintro m gen ⟨hn,hm⟩
        refine ⟨hn.trans_le hf.next,?_⟩
        rwa [hf.entries,if_neg]
        rintro ⟨heq,-⟩
        rw [heq] at hn
        exact lt_irrefl _ hn
      have hdeeper : ∀ i, 0 < i → filesAt db.flushNext.version.levels i = [] := by
        intro i hi
        rw [hf.files,if_neg fun hz => hi.ne hz.1]
        exact h.deeper i hi
      have hframe : Holds db.flushNext.memtable.table.chain active ∧
          ∀ e ∈ db.flushNext.memtable.table.chain, e.key.seq≤db.flushNext.seq := by
        rw [hf.memtable,hf.seq]
        exact ⟨h.active,h.seqs⟩
      by_cases hops : ops = []
      · have hchain : entry.memtable.table.chain = [] := hentry.eq_nil_iff.mpr hops
        rw [Generations.step,hops]
        refine ⟨hframe.1,by rwa [herase],?_,hdeeper,by rw [hf.flushQueue,herase],hframe.2⟩
        rw [hf.files,if_neg fun hz => hz.2 hchain]
        exact hfiles
      · have hchain : entry.memtable.table.chain ≠ [] := fun hnil => hops (hentry.eq_nil_iff.mp hnil)
        have hstep : Generations.step ⟨flushed,ops::frozen,active⟩ .flush =
            ⟨flushed++[ops],frozen,active⟩ := by simp [Generations.step,hops]
        rw [hstep]
        refine ⟨hframe.1,by rwa [herase],?_,hdeeper,by rw [hf.flushQueue,herase],hframe.2⟩
        rw [hf.files,if_pos ⟨rfl,hchain⟩]
        refine rel_append hfiles (Forall₂.cons ⟨hf.taken hchain,?_⟩ Forall₂.nil)
        rwa [hf.entries,if_pos ⟨rfl,hchain⟩]

theorem run {events : List Event} (hplain : ∀ e ∈ events, e.plain = true) :
    Refines (db.run events) (g.run events) := by
  induction events generalizing db g with
  | nil => exact h
  | cons e es ih =>
    refine ih ?_ (fun x hx => hplain x (by simp [hx]))
    have he := hplain e (by simp)
    cases e with
    | write group => exact h.write group
    | freeze => exact h.freeze
    | flush => exact h.flush
    | compact level | reopen => cases he

lemma levels_search (k : Bytes) :
    ((range (db.options.maxLevel+1)).findSome? fun level =>
      (db.version.getLevelFiles level).findSome? fun path =>
        (db.disk.reader path).bind fun reader => reader.get k) =
      g.flushed.findSome? fun ops => (lastOp ops k).join := by
  have hzero : ((db.version.getLevelFiles 0).findSome? fun path =>
      (db.disk.reader path).bind fun reader => reader.get k) =
      g.flushed.findSome? fun ops => (lastOp ops k).join := by
    rw [Version.getLevelFiles,findSome?_map]
    refine findSome?_congr h.flushed ?_
    rintro m ops ⟨-,hm⟩
    rw [Function.comp_apply,Disk.bind_get_eq]
    exact hm.lookup (db.disk.ascending_entriesOf m.path) k
  have hrest : ((range db.options.maxLevel).map Nat.succ).findSome? (fun level =>
      (db.version.getLevelFiles level).findSome? fun path =>
        (db.disk.reader path).bind fun reader => reader.get k) = none := by
    apply findSome?_eq_none_iff.mpr
    intro level hlevel
    obtain ⟨i,-,rfl⟩ := mem_map.mp hlevel
    rw [Version.getLevelFiles,h.deeper _ (Nat.succ_pos i)]
    rfl
  rw [range_succ_eq_map,findSome?_cons,hrest,hzero]
  cases g.flushed.findSome? (fun ops => (lastOp ops k).join) <;> rfl

/-- `get` is the search through the generations in the order of `visited`. -/
theorem get_eq_search (k : Bytes) : db.get k = answer (g.search k) := by
  have hactive : db.memtable.table.get k db.seq = (lastOp g.active k).join :=
    h.active.lookup db.memtable.table.ascending k
  have hfrozen : (db.immutableList.reverse.findSome? fun m => m.table.get k db.seq) =
      g.frozen.reverse.findSome? fun ops => (lastOp ops k).join :=
    findSome?_congr (forall₂_reverse_iff.mpr h.frozen) fun m _ hm => hm.lookup m.table.ascending k
  rw [DBImpl.get,hactive,hfrozen,h.levels_search,Generations.search,Generations.visited,
    findSome?_cons,findSome?_append]
  cases (lastOp g.active k).join with
  | some v => rfl
  | none =>
    cases g.frozen.reverse.findSome? (fun ops => (lastOp ops k).join) with
    | some v => rfl
    | none => cases g.flushed.findSome? (fun ops => (lastOp ops k).join) <;> rfl

end

end Refines

lemma lastOp_of_puts {ops : List BatchOp} (h : ∀ op ∈ ops, op.type = .put) (k : Bytes) :
    (lastOp ops k).join.map some = lastOp ops k := by
  cases hl : lastOp ops k with
  | none => rfl
  | some x =>
    rw [lastOp,overlay,← map_reverse,findSome?_map] at hl
    obtain ⟨op,hop,heff⟩ := exists_of_findSome?_eq_some hl
    have hput := h op (mem_reverse.mp hop)
    simp only [Function.comp_apply,BatchOp.effect,hput] at heff
    split at heff
    · obtain rfl := Option.some.inj heff
      rfl
    · cases heff

namespace Generations

lemma search_of_puts {g : Generations} (h : ∀ op ∈ g.ops, op.type = .put) (k : Bytes) :
    (g.search k).map some =
      ((lastOp g.active k).or (overlay (g.frozen.map lastOp) k)).or
        (g.flushed.findSome? fun ops => lastOp ops k) := by
  have hgen : ∀ ops ∈ g.visited, (lastOp ops k).join.map some = lastOp ops k := by
    intro ops hops
    apply lastOp_of_puts
    intro op hop
    apply h
    simp only [visited,mem_cons,mem_append,mem_reverse] at hops
    rcases hops with rfl | hops | hops
    · exact mem_append_right _ hop
    · exact mem_append_left _ (mem_append_right _ (mem_flatten.mpr ⟨ops,hops,hop⟩))
    · exact mem_append_left _ (mem_append_left _ (mem_flatten.mpr ⟨ops,hops,hop⟩))
  have hsearch : (g.search k).map some = g.visited.findSome? fun ops => lastOp ops k := by
    rw [search,map_findSome?]
    exact findSome?_congr (forall₂_same.mpr hgen) fun _ _ h => h
  have hfrozen : overlay (g.frozen.map lastOp) k = g.frozen.reverse.findSome? fun ops => lastOp ops k := by
    rw [overlay,← map_reverse,findSome?_map]
    rfl
  rw [hsearch,hfrozen,visited,findSome?_cons,findSome?_append]
  cases lastOp g.active k <;> rfl

theorem search_eq_lastOp_iff {g : Generations} (h : ∀ op ∈ g.ops, op.type = .put) (k : Bytes) :
    g.search k = (lastOp g.ops k).join ↔ g.InMemory k ∨ g.FlushedAgree k := by
  have hinj : g.search k = (lastOp g.ops k).join ↔
      (g.search k).map some = (lastOp g.ops k).join.map some :=
    (Option.map_injective (Option.some_injective _)).eq_iff.symm
  rw [hinj,search_of_puts h,lastOp_of_puts h,lastOp_ops,inMemory_iff,FlushedAgree]
  cases (lastOp g.active k).or (overlay (g.frozen.map lastOp) k) <;> simp

end Generations

/-- After any run of puts, freezes and flushes, `get` returns the last value put, or
NotFound if there is none, exactly when an operation on the key is still in memory or the
oldest and the newest level-0 file that hold the key agree. -/
theorem get_eq_expected_iff (options : Options) (events : List Event)
    (hplain : ∀ e ∈ events, e.plain = true) (hputs : ∀ op ∈ history events, op.type = .put)
    (k : Bytes) :
    ((fresh options).run events).get k = expected (history events) k ↔
      (Generations.start.run events).InMemory k ∨ (Generations.start.run events).FlushedAgree k := by
  have hops : (Generations.start.run events).ops = history events := Generations.ops_run _ hplain
  rw [((Refines.fresh options).run hplain).get_eq_search k,expected,answer_injective.eq_iff,← hops]
  rw [← hops] at hputs
  exact Generations.search_eq_lastOp_iff hputs k

/-- Two values of one key in one MemTable, then flushed: the newer one is read. -/
theorem get_after_overwrite_in_memory :
    ((fresh ⟨100,6⟩).run
      [.write [[⟨.put,[1],[2]⟩]],.write [[⟨.put,[1],[3]⟩]],.freeze,.flush]).get [1] =
      expected [⟨.put,[1],[2]⟩,⟨.put,[1],[3]⟩] [1] :=
  (get_eq_expected_iff ⟨100,6⟩ [.write [[⟨.put,[1],[2]⟩]],.write [[⟨.put,[1],[3]⟩]],.freeze,.flush]
    (by decide) (by decide) [1]).mpr (.inr (by unfold Generations.FlushedAgree; decide))

/-- A value overwritten after its flush comes back once the new value is flushed as well. -/
theorem get_stale_after_second_flush :
    ((fresh ⟨100,6⟩).run
      [.write [[⟨.put,[1],[2]⟩]],.freeze,.flush,.write [[⟨.put,[1],[3]⟩]],.freeze,.flush]).get [1] =
        .ok [2] ∧
      expected (history
        [.write [[⟨.put,[1],[2]⟩]],.freeze,.flush,.write [[⟨.put,[1],[3]⟩]],.freeze,.flush]) [1] =
        .ok [3] := by
  decide +kernel

/-- After any run of writes, freezes and flushes whose last operation on the key is a
delete, the answer should be NotFound, and `get` gives it exactly when no generation ends
on a put of the key. -/
theorem get_deleted_eq_notFound_iff (options : Options) (events : List Event)
    (hplain : ∀ e ∈ events, e.plain = true) (k : Bytes)
    (hdeleted : lastOp (history events) k = some none) :
    expected (history events) k = .error .NotFound ∧
      (((fresh options).run events).get k = .error .NotFound ↔
        (Generations.start.run events).NoLivePut k) := by
  refine ⟨by rw [expected,hdeleted]; rfl,?_⟩
  rw [((Refines.fresh options).run hplain).get_eq_search k,← Generations.search_eq_none_iff]
  exact answer_injective.eq_iff' rfl

/-- A put and its delete in one MemTable. -/
theorem get_deleted_in_memory :
    ((fresh ⟨100,6⟩).run
      [.write [[⟨.put,[1],[2]⟩],[⟨.delete,[1],[]⟩]],.freeze,.flush]).get [1] = .error .NotFound :=
  (get_deleted_eq_notFound_iff ⟨100,6⟩ [.write [[⟨.put,[1],[2]⟩],[⟨.delete,[1],[]⟩]],.freeze,.flush]
    (by decide) [1] (by decide)).2.mpr (by unfold Generations.NoLivePut; decide)

/-- A tombstone in the active MemTable does not hide a frozen value. -/
theorem get_deleted_from_frozen :
    ((fresh ⟨100,6⟩).run
      [.write [[⟨.put,[1],[2]⟩]],.freeze,.write [[⟨.delete,[1],[]⟩]]]).get [1] = .ok [2] ∧
      lastOp (history [.write [[⟨.put,[1],[2]⟩]],.freeze,.write [[⟨.delete,[1],[]⟩]]]) [1] =
        some none := by
  decide +kernel

end TitanKV.Minikv
