import TitanKV.Minikv.GroupCommitProtocol
import TitanKV.Minikv.WalTear

/-! Group commit applies every batch once: `doWriteGroup` gets it once, with numbers of its own, and
the WAL files and the MemTables are what these calls make of them, one after the other. -/
namespace TitanKV.Minikv
open List Option

def Commit.record (c : Commit) : Bytes := walRecord (encodeGroup (c.batches.map Reservation.batch))

def Commit.inserts (c : Commit) : List (ℕ × BatchOp) :=
  if c.status.ok then c.batches.flatMap Reservation.inserts else []

def Commit.made (c : Commit) : List (ℕ × BatchOp) := c.inserts.take (c.inserts.length - c.todo.length)

def MemTable.insertAll (m : MemTable) (inserts : List (ℕ × BatchOp)) : MemTable :=
  inserts.foldl (fun m i => m.put i.2.key i.2.value i.1 (i.2.type = .delete)) m

def replayCommits (first : MemTable) (commits : List Commit) (id : ℕ) : MemTable :=
  (if id = 0 then first else .empty).insertAll ((commits.filter fun c => c.table = id).flatMap Commit.made)

lemma MemTable.insertAll_append (m : MemTable) (is js : List (ℕ × BatchOp)) :
    m.insertAll (is++js) = (m.insertAll is).insertAll js := foldl_append

lemma replayCommits_append (first : MemTable) (commits : List Commit) (c : Commit) (id : ℕ) :
    replayCommits first (commits++[c]) id =
      if c.table = id then (replayCommits first commits id).insertAll c.made
      else replayCommits first commits id := by
  rw [replayCommits,filter_append,flatMap_append,MemTable.insertAll_append]
  by_cases h : c.table = id
  · simp [h,replayCommits]
  · simp [h,replayCommits,MemTable.insertAll]

lemma replayCommits_of_lt (first : MemTable) {commits : List Commit} {id : ℕ} (hid : id ≠ 0)
    (h : ∀ c ∈ commits, c.table < id) : replayCommits first commits id = .empty := by
  have hnone : (commits.filter fun c => c.table = id) = [] := by
    rw [filter_eq_nil_iff]
    intro c hc
    have := h c hc
    simp only [decide_eq_true_eq]
    omega
  rw [replayCommits,hnone,if_neg hid]
  rfl

lemma Commit.made_next {c : Commit} {i : ℕ × BatchOp} {todo : List (ℕ × BatchOp)}
    (h : c.made++c.todo = c.inserts) (hnext : c.todo = i::todo) :
    { c with todo := todo }.made = c.made++[i] := by
  have hinserts : { c with todo := todo }.inserts = (c.made++[i])++todo := by
    rw [append_assoc,singleton_append,← hnext,h]
    rfl
  rw [made,hinserts,length_append,Nat.add_sub_cancel,take_left]

lemma Commit.made_of_applied {c : Commit} (h : c.todo = []) : c.made = c.inserts := by
  rw [made,h,length_nil,Nat.sub_zero,take_length]

lemma pairwise_reserve (seq : ℕ) (queue : List QueuedWrite) :
    (reserve seq queue).Pairwise (fun a b => a.base+a.batch.length≤b.base) ∧
      ∀ r ∈ reserve seq queue, seq≤r.base ∧
        r.base+r.batch.length ≤ seq+(queue.map fun q => q.batch.length).sum := by
  induction queue generalizing seq with
  | nil => exact ⟨Pairwise.nil,by simp [reserve]⟩
  | cons q queue ih =>
    obtain ⟨hpair,hbounds⟩ := ih (seq+q.batch.length)
    rw [reserve,pairwise_cons]
    refine ⟨⟨fun r hr => (hbounds r hr).1,hpair⟩,?_⟩
    intro r hr
    rw [map_cons,sum_cons]
    rcases mem_cons.mp hr with rfl | hr
    · dsimp only
      omega
    · have := hbounds r hr
      omega

namespace Writers
variable {s s' : Writers} {seq : ℕ} {wal : Bytes} {first : MemTable}

/-- The calls of `doWriteGroup` so far account for the numbers, the WAL files and the MemTables. -/
structure Ordered (seq : ℕ) (wal : Bytes) (first : MemTable) (s : Writers) : Prop where
  grown : seq ≤ s.seq
  ranges : s.handed.Pairwise fun a b => a.base+a.batch.length≤b.base
  reserved : ∀ r ∈ s.handed, seq≤r.base ∧ r.base+r.batch.length ≤ s.seq
  log : (s.retired++[s.wal]).flatten = wal ++ s.commits.flatMap Commit.written
  written : ∀ c ∈ s.commits, ∃ n, c.written = c.record.take n
  whole : ∀ c ∈ s.commits, c.status.ok = true → c.written = c.record
  pending : ∀ c ∈ s.commits, c.made++c.todo = c.inserts
  settled : ∀ c ∈ s.history, c.todo = []
  current : ∀ c, s.commit = some c → c.table = s.frozen.length
  placed : ∀ c ∈ s.commits, c.table ≤ s.frozen.length
  tables : ∀ id ≤ s.frozen.length, s.tableAt id = some (replayCommits first s.commits id)

lemma commits_of_none (h : s.commit = none) : s.commits = s.history := by
  rw [commits,h,toList_none,append_nil]

lemma commits_of_some {c : Commit} (h : s.commit = some c) : s.commits = s.history++[c] := by
  rw [commits,h,toList_some]

lemma commits_settle {c : Commit} (h : s.commit = some c) : (s.settle c).commits = s.commits := by
  rw [commits_of_some h,commits_of_none rfl]
  rfl

lemma maybeFlush_settle (s : Writers) (opened : Bool) (c : Commit) :
    (s.maybeFlush opened).settle c = (s.settle c).maybeFlush opened := by
  rw [maybeFlush,maybeFlush]
  change _ = if s.memtable.approximateMemoryUsage<s.memtableSize then _ else _
  by_cases h : s.memtable.approximateMemoryUsage<s.memtableSize
  · rw [if_pos h,if_pos h]
  · rw [if_neg h,if_neg h]
    rfl

lemma tableAt_of_lt {id : ℕ} (h : id<s.frozen.length) : s.tableAt id = s.frozen[id]? := by
  rw [tableAt,getElem?_append_left h]

lemma tableAt_length (s : Writers) : s.tableAt s.frozen.length = some s.memtable := by
  rw [tableAt,getElem?_concat_length]

/-- What `doWriteGroup` knows when its inserts begin. -/
structure Begun (s : Writers) (c : Commit) (after : Writers) : Prop where
  commit : after.commit = some c
  batches : c.batches = reserve s.seq s.groupEntries
  wal : after.wal = s.wal++c.written
  written : ∃ n, c.written = c.record.take n
  whole : c.status.ok = true → c.written = c.record
  table : c.table = s.frozen.length
  todo : c.todo = c.inserts

/-- An append adds a beginning of the record, and all of it if it succeeds. -/
lemma append_cases (s : Writers) (data : Bytes) (header payload : WriteOutcome) :
    ∃ added, (s.append data header payload).2 = s.wal++added ∧ (∃ n, added = (walRecord data).take n) ∧
      ((s.append data header payload).1.ok = true → added = walRecord data) := by
  rw [append]
  split
  · refine ⟨_,walAppend_file s.wal data header payload,added_eq_take (.append data header payload),fun hok => ?_⟩
    rw [walAppend_status] at hok
    exact WalEvent.whole_iff.mp (whole_of_acknowledged (e := .append data header payload) hok)
  · exact ⟨[],(append_nil _).symm,⟨0,rfl⟩,fun hok => by cases hok⟩

lemma exists_begun (s : Writers) (leader : ℕ) (header payload : WriteOutcome) (synced : Bool) :
    ∃ c, s.Begun c (s.beginCommit leader header payload synced) := by
  set data := encodeGroup ((reserve s.seq s.groupEntries).map Reservation.batch) with hdata
  obtain ⟨added,hfile,htake,hwhole⟩ := s.append_cases data header payload
  have hdrop : (s.append data header payload).2.drop s.wal.length = added := by
    rw [hfile,drop_left]
  refine ⟨_,rfl,rfl,?_,?_,?_,rfl,rfl⟩
  · dsimp only [beginCommit]
    rw [← hdata,hdrop,hfile]
  · rw [← hdata,hdrop]
    exact htake
  · intro hok
    rw [← hdata,hdrop]
    apply hwhole
    by_contra hfailed
    rw [Bool.not_eq_true] at hfailed
    rw [← hdata,if_pos hfailed,hfailed] at hok
    cases hok

lemma handed_beginCommit (hcommit : s.commit = none) (leader : ℕ) (header payload : WriteOutcome) (synced : Bool) :
    (s.beginCommit leader header payload synced).handed = s.handed ++ reserve s.seq s.groupEntries := by
  obtain ⟨c,hc⟩ := s.exists_begun leader header payload synced
  rw [handed,commits_of_some hc.commit,handed,commits_of_none hcommit,flatMap_append,
    flatMap_singleton,hc.batches]
  rfl

namespace Ordered

theorem start (memtableSize : ℕ) (walSync : Bool) (seq : ℕ) (wal : Bytes) (memtable : MemTable) :
    (Writers.start memtableSize walSync seq wal memtable).Ordered seq wal memtable := by
  refine ⟨?_,?_,?_,?_,?_,?_,?_,?_,?_,?_,?_⟩
  all_goals simp [Writers.start,handed,commits]
  rfl

section
variable (h : s.Ordered seq wal first)
include h

theorem lead (hcommit : s.commit = none) (leader : ℕ) (header payload : WriteOutcome)
    (synced : Bool) : (s.beginCommit leader header payload synced).Ordered seq wal first := by
  obtain ⟨c,hc⟩ := s.exists_begun leader header payload synced
  set after := s.beginCommit leader header payload synced with hafter
  have hold : s.commits = s.history := commits_of_none hcommit
  have hnew : after.commits = s.commits++[c] := by
    rw [commits_of_some hc.commit,hold]
    rfl
  have hhanded : after.handed = s.handed ++ reserve s.seq s.groupEntries := handed_beginCommit hcommit ..
  have hmade : c.made = [] := by
    rw [Commit.made,hc.todo,Nat.sub_self,take_zero]
  obtain ⟨hpair,hbounds⟩ := pairwise_reserve s.seq s.groupEntries
  have hmem : ∀ {d : Commit}, d ∈ after.commits → d ∈ s.commits ∨ d = c := by
    intro d hd
    rw [hnew] at hd
    simpa using hd
  refine ⟨h.grown.trans (Nat.le_add_right _ _),?_,?_,?_,?_,?_,?_,h.settled,?_,?_,?_⟩
  · rw [hhanded,pairwise_append]
    exact ⟨h.ranges,hpair,fun a ha b hb => (h.reserved a ha).2.trans (hbounds b hb).1⟩
  · intro r hr
    rw [hhanded] at hr
    rcases mem_append.mp hr with hr | hr
    · exact ⟨(h.reserved r hr).1,(h.reserved r hr).2.trans (Nat.le_add_right _ _)⟩
    · exact ⟨h.grown.trans (hbounds r hr).1,(hbounds r hr).2⟩
  · rw [hnew,flatMap_append,flatMap_singleton,← append_assoc,← h.log,hc.wal]
    change (s.retired++[_]).flatten = _
    simp
  · intro d hd
    rcases hmem hd with hd | rfl
    · exact h.written d hd
    · exact hc.written
  · intro d hd
    rcases hmem hd with hd | rfl
    · exact h.whole d hd
    · exact hc.whole
  · intro d hd
    rcases hmem hd with hd | rfl
    · exact h.pending d hd
    · rw [hmade,hc.todo,nil_append]
  · intro d hd
    rw [hc.commit] at hd
    obtain rfl := some.inj hd
    exact hc.table
  · intro d hd
    rcases hmem hd with hd | rfl
    · exact h.placed d hd
    · exact hc.table.le
  · intro id hid
    rw [hnew,replayCommits_append,hmade]
    exact (h.tables id hid).trans (by split <;> rfl)

theorem insert {c : Commit} {n : ℕ} {op : BatchOp} {todo : List (ℕ × BatchOp)}
    (hc : s.commit = some c) (hnext : c.todo = (n,op)::todo) :
    (s.insertOp c n op todo).Ordered seq wal first := by
  set c' : Commit := { c with todo := todo } with hc'
  have hold : s.commits = s.history++[c] := commits_of_some hc
  have hnew : (s.insertOp c n op todo).commits = s.history++[c'] := commits_of_some rfl
  have hin : c ∈ s.commits := by simp [hold]
  have hmade : c'.made = c.made++[(n,op)] := Commit.made_next (h.pending c hin) hnext
  have hhanded : (s.insertOp c n op todo).handed = s.handed := by
    rw [handed,handed,hnew,hold]
    simp [hc']
  have hmem : ∀ {d : Commit}, d ∈ (s.insertOp c n op todo).commits → d ∈ s.commits ∨ d = c' := by
    intro d hd
    rw [hnew] at hd
    rcases mem_append.mp hd with hd | hd
    · exact .inl (by simp [hold,hd])
    · exact .inr (mem_singleton.mp hd)
  refine ⟨h.grown,?_,?_,?_,?_,?_,?_,h.settled,?_,?_,?_⟩
  · rw [hhanded]
    exact h.ranges
  · rw [hhanded]
    exact h.reserved
  · rw [hnew]
    exact h.log.trans (by rw [hold]; simp [hc'])
  · intro d hd
    rcases hmem hd with hd | rfl
    · exact h.written d hd
    · exact h.written c hin
  · intro d hd
    rcases hmem hd with hd | rfl
    · exact h.whole d hd
    · exact h.whole c hin
  · intro d hd
    rcases hmem hd with hd | rfl
    · exact h.pending d hd
    · rw [hmade,append_assoc,singleton_append,← hnext]
      exact h.pending c hin
  · intro d hd
    obtain rfl := some.inj hd
    exact h.current c hc
  · intro d hd
    rcases hmem hd with hd | rfl
    · exact h.placed d hd
    · exact h.placed c hin
  · intro id (hid : id ≤ s.frozen.length)
    have htable := h.tables id hid
    have hcurrent : c'.table = s.frozen.length := h.current c hc
    rw [hold,replayCommits_append] at htable
    rw [hnew,replayCommits_append]
    rcases hid.lt_or_eq with hlt | rfl
    · have hne : c'.table ≠ id := by omega
      rw [if_neg hne] at htable ⊢
      rw [← htable,tableAt_of_lt (s := s) hlt]
      exact tableAt_of_lt hlt
    · rw [if_pos hcurrent,tableAt_length] at htable
      rw [if_pos hcurrent,hmade,MemTable.insertAll_append,← some.inj htable]
      exact tableAt_length (s.insertOp c n op todo)

lemma settle {c : Commit} (hc : s.commit = some c) (happlied : c.todo = []) :
    (s.settle c).Ordered seq wal first := by
  have hsame := commits_settle hc
  refine ⟨h.grown,?_,?_,?_,?_,?_,?_,?_,fun d hd => (by cases hd),?_,?_⟩
  · rw [handed,hsame]
    exact h.ranges
  · rw [handed,hsame]
    exact h.reserved
  · rw [hsame]
    exact h.log
  · rw [hsame]
    exact h.written
  · rw [hsame]
    exact h.whole
  · rw [hsame]
    exact h.pending
  · intro d hd
    rcases mem_append.mp hd with hd | hd
    · exact h.settled d hd
    · rw [mem_singleton.mp hd,happlied]
  · rw [hsame]
    exact h.placed
  · rw [hsame]
    exact h.tables

lemma maybeFlush (hcommit : s.commit = none) (opened : Bool) :
    (s.maybeFlush opened).Ordered seq wal first := by
  rw [Writers.maybeFlush]
  split
  · exact h
  · refine { h with log := ?_, current := ?_, placed := ?_, tables := ?_ }
    · refine Eq.trans ?_ h.log
      simp
    · intro c hc
      cases hcommit.symm.trans hc
    · intro c hc
      have := h.placed c hc
      rw [length_append]
      omega
    · intro id hid
      rcases hid.lt_or_eq with hlt | rfl
      · rw [tableAt_of_lt hlt]
        exact h.tables id (by simpa using hlt)
      · refine (tableAt_length _).trans ?_
        rw [replayCommits_of_lt]
        · simp
        · intro c hc
          have := h.placed c hc
          rw [length_append,length_singleton]
          omega

theorem step (hstep : s.Step s') : s'.Ordered seq wal first := by
  cases hstep with
  | join free new | wake free done | hold free => exact { h with }
  | lead free called leading => exact h.lead free _ _ _ _
  | insert busy next => exact h.insert busy next
  | flush busy applied ok =>
    rw [maybeFlush_settle]
    exact (h.settle busy applied).maybeFlush rfl _
  | abort busy applied failed => exact h.settle busy applied
  | sleep => exact h

end

end Ordered

/-- Every write is applied once, in the order of the log, before its caller learns the outcome. -/
structure ExactlyOnce (wal : Bytes) (first : MemTable) (s : Writers) : Prop where
  once : (s.handed.map Reservation.call ++ s.groupEntries.map QueuedWrite.call).Nodup
  kept : ∀ call w, s.calls call = some w →
    (∃ r ∈ s.handed, r.call = call ∧ r.batch = w.batch) ∨
      ∃ q ∈ s.groupEntries, q.call = call ∧ q.batch = w.batch
  -- a queue is never left without a leader that can hand over all of it
  next : s.groupEntries ≠ [] → ∃ call, ∀ header payload synced, ∃ t,
    s.step (.lead call header payload synced) = some t ∧ t.groupEntries = [] ∧
      t.handed = s.handed ++ reserve s.seq s.groupEntries
  ranges : s.handed.Pairwise fun a b => a.base+a.batch.length≤b.base
  log : (s.retired++[s.wal]).flatten = wal ++ s.commits.flatMap Commit.written
  written : ∀ c ∈ s.commits, ∃ n, c.written = c.record.take n
  whole : ∀ c ∈ s.commits, c.status.ok = true → c.written = c.record
  tables : ∀ id ≤ s.frozen.length, s.tableAt id = some (replayCommits first s.commits id)
  applied : ∀ c ∈ s.history, c.made = c.inserts
  returned : ∀ call w status, s.calls call = some w → w.state = .returned status →
    ∃ c ∈ s.history, c.status = status ∧ ∃ r ∈ c.batches, r.call = call ∧ r.batch = w.batch

lemma Protocol.lead_enabled (h : s.Protocol) (hqueue : s.groupEntries ≠ []) :
    s.commit = none ∧ ∃ call, ∀ header payload synced,
      s.step (.lead call header payload synced) = some (s.beginCommit call header payload synced) := by
  have hfree : s.commit = none := by
    by_contra hbusy
    exact hqueue (h.locked hbusy)
  refine ⟨hfree,(s.groupEntries.head hqueue).call,?_⟩
  intro header payload synced
  have hleader := h.leader _ (head?_eq_some_head hqueue)
  rw [Writers.step,hfree,hleader]
  rfl

theorem exactlyOnce_of_run (memtableSize : ℕ) (walSync : Bool) (seq : ℕ) (wal : Bytes) (first : MemTable)
    (events : List WriterEvent) (s : Writers)
    (hrun : Runs.run step (start memtableSize walSync seq wal first) events = some s) :
    s.ExactlyOnce wal first := by
  have hprotocol : s.Protocol :=
    reached (fun _ _ h hstep => h.step hstep) hrun (Protocol.start memtableSize walSync seq wal first)
  have hordered : s.Ordered seq wal first :=
    reached (fun _ _ h hstep => h.step hstep) hrun (Ordered.start memtableSize walSync seq wal first)
  refine { hprotocol, hordered with
    kept := ?_, next := ?_, applied := fun c hc => Commit.made_of_applied (hordered.settled c hc), returned := ?_ }
  · intro call w hw
    rcases hprotocol.whereabouts hw with ⟨q,hq,hcall,hbatch,-⟩ | ⟨c,hc,r,hr,hcall,hbatch,-⟩ | ⟨c,hc,r,hr,hcall,
      hstate⟩
    · exact .inr ⟨q,hq,hcall,hbatch⟩
    · refine .inl ⟨r,mem_flatMap.mpr ⟨c,?_,hr⟩,hcall,hbatch⟩
      simp [commits_of_some hc]
    · refine .inl ⟨r,mem_flatMap.mpr ⟨c,mem_append_left _ hc,hr⟩,hcall,?_⟩
      rcases hstate with rfl | rfl <;> rfl
  · intro hqueue
    obtain ⟨hfree,call,hlead⟩ := hprotocol.lead_enabled hqueue
    exact ⟨call,fun header payload synced => ⟨_,hlead header payload synced,rfl,handed_beginCommit hfree ..⟩⟩
  · intro call w status hw hreturned
    rcases hprotocol.whereabouts hw with ⟨q,hq,hcall,hbatch,hasleep⟩ | ⟨c,hc,r,hr,hcall,hbatch,hasleep⟩ |
      ⟨c,hc,r,hr,hcall,rfl | rfl⟩
    · rcases hasleep with hasleep | hasleep <;> rw [hw] at hasleep <;>
        rw [some.inj hasleep] at hreturned <;> cases hreturned
    · rcases hasleep with hasleep | hasleep <;> rw [hw] at hasleep <;>
        rw [some.inj hasleep] at hreturned <;> cases hreturned
    · cases hreturned
    · exact ⟨c,hc,CallState.returned.inj hreturned,r,hr,hcall,rfl⟩

/-- Two calls share a group; the second batch deletes what the first one puts. -/
theorem exactlyOnce_of_two_calls : ∃ s,
    Runs.run step (start 1000 true 0 [] .empty)
      [.enter 1 [⟨.put,[1],[7]⟩] true,.enter 2 [⟨.delete,[1],[]⟩] false,.lead 1 .full .full true,.insert,.insert,
        .finish true,.wake 2] = some s ∧ s.ExactlyOnce [] .empty := by
  obtain ⟨s,hs⟩ := isSome_iff_exists.mp (by decide +kernel : (Runs.run step (start 1000 true 0 [] .empty)
      [.enter 1 [⟨.put,[1],[7]⟩] true,.enter 2 [⟨.delete,[1],[]⟩] false,.lead 1 .full .full true,.insert,.insert,
        .finish true,.wake 2]).isSome = true)
  exact ⟨s,hs,exactlyOnce_of_run _ _ _ _ _ _ s hs⟩

end Writers
end TitanKV.Minikv
