import TitanKV.Minikv.GroupCommitOrder
import TitanKV.Minikv.Sequence

/-! Whether a reader sees batches whole. `doWriteGroup` inserts one operation at a time, and a reader
that took the pointer of the active MemTable before reads it while the inserts go on. -/
namespace TitanKV.Minikv
open List Reservation

def insertedEntry (i : ℕ × BatchOp) : Entry :=
  let isDelete : Bool := i.2.type = .delete
  ⟨⟨i.2.key,i.1,if isDelete then .deletion else .value⟩,if isDelete then [] else i.2.value⟩

/-- A list of entries shows all operations of the batch or none of them. -/
def Reservation.AllOrNone (r : Reservation) (es : List Entry) : Prop :=
  (∀ i ∈ r.inserts, insertedEntry i ∈ es) ∨ ∀ i ∈ r.inserts, insertedEntry i ∉ es

lemma Reservation.map_fst_inserts (r : Reservation) :
    r.inserts.map Prod.fst = range' (r.base+1) r.batch.length := by
  rw [inserts,map_map]
  exact zipIdx_map_snd (r.base+1) r.batch

lemma Reservation.pairwise_inserts (r : Reservation) : r.inserts.Pairwise fun i j => i.1<j.1 := by
  rw [← pairwise_map (f := Prod.fst) (R := (· < ·)),map_fst_inserts]
  exact pairwise_lt_range'

lemma Reservation.number_of_mem {r : Reservation} {i : ℕ × BatchOp} (h : i ∈ r.inserts) :
    r.base < i.1 ∧ i.1≤r.base+r.batch.length := by
  have hmem : i.1 ∈ range' (r.base+1) r.batch.length := by
    rw [← r.map_fst_inserts]
    exact mem_map_of_mem h
  rw [mem_range'_1] at hmem
  omega

lemma Reservation.exists_of_number {r : Reservation} {n : ℕ} (hlow : r.base<n)
    (hhigh : n≤r.base+r.batch.length) : ∃ i ∈ r.inserts, i.1 = n := by
  have hmem : n ∈ r.inserts.map Prod.fst := by
    rw [r.map_fst_inserts,mem_range'_1]
    omega
  simpa using hmem

lemma pairwise_flatMap_inserts {rs : List Reservation}
    (h : rs.Pairwise fun a b => a.base+a.batch.length≤b.base) :
    (rs.flatMap inserts).Pairwise fun i j => i.1<j.1 := by
  rw [pairwise_flatMap]
  refine ⟨fun r _ => r.pairwise_inserts,h.imp ?_⟩
  intro a b hab i hi j hj
  have := number_of_mem hi
  have := number_of_mem hj
  omega

lemma MemTable.mem_insertAll {m : MemTable} {is : List (ℕ × BatchOp)} {e : Entry}
    (hfresh : ∀ i ∈ is, ∀ x ∈ m.chain, x.key.seq < i.1) (hpair : is.Pairwise fun i j => i.1<j.1) :
    e ∈ (m.insertAll is).chain ↔ e ∈ m.chain ∨ ∃ i ∈ is, e = insertedEntry i := by
  induction is generalizing m with
  | nil => simp [insertAll]
  | cons i is ih =>
    obtain ⟨hi,his⟩ := pairwise_cons.mp hpair
    have hput : ∀ {x : Entry}, x ∈ (m.put i.2.key i.2.value i.1 (i.2.type = .delete)).chain ↔
        x = insertedEntry i ∨ x ∈ m.chain := by
      intro x
      refine mem_skipPut_of_fresh ?_
      rintro y hy hkey
      have hlt := hfresh i (by simp) y hy
      rw [hkey] at hlt
      exact lt_irrefl _ hlt
    change e ∈ ((m.put i.2.key i.2.value i.1 (i.2.type = .delete)).insertAll is).chain ↔ _
    rw [ih _ his,hput]
    · simp only [mem_cons,exists_eq_or_imp]
      tauto
    · intro j hj x hx
      rcases hput.mp hx with rfl | hx
      · exact hi j hj
      · exact hfresh j (by simp [hj]) x hx

lemma Commit.made_sublist (c : Commit) : c.made.Sublist (c.batches.flatMap Reservation.inserts) := by
  refine (take_sublist _ _).trans ?_
  rw [inserts]
  split
  · exact Sublist.refl _
  · exact nil_sublist _

namespace Writers
variable {s s' : Writers} {seq : ℕ} {wal : Bytes} {first : MemTable}

/-- The inserts that have been promised so far, as if every group had succeeded. -/
def numbered (s : Writers) : List (ℕ × BatchOp) :=
  s.commits.flatMap fun c => c.batches.flatMap inserts

lemma mem_numbered {c : Commit} (hc : c ∈ s.commits) {i : ℕ × BatchOp}
    (hi : i ∈ c.batches.flatMap inserts) : i ∈ s.numbered :=
  mem_flatMap.mpr ⟨c,hc,hi⟩

namespace Ordered

lemma pairwise_numbered (h : s.Ordered seq wal first) : s.numbered.Pairwise fun i j => i.1<j.1 := by
  have hhanded : s.numbered = s.handed.flatMap inserts := by
    rw [numbered,handed,flatMap_assoc]
  rw [hhanded]
  exact pairwise_flatMap_inserts h.ranges

lemma nodup_numbered (h : s.Ordered seq wal first) : s.numbered.Nodup := by
  refine h.pairwise_numbered.imp ?_
  rintro i j hlt rfl
  exact lt_irrefl _ hlt

variable {i : ℕ × BatchOp}

lemma seq_lt_of_mem_numbered (h : s.Ordered seq wal first) (hi : i ∈ s.numbered) : seq < i.1 := by
  obtain ⟨c,hc,hi⟩ := mem_flatMap.mp hi
  obtain ⟨r,hr,hi⟩ := mem_flatMap.mp hi
  have := (h.reserved r (mem_flatMap.mpr ⟨c,hc,hr⟩)).1
  have := number_of_mem hi
  omega

lemma eq_of_number (h : s.Ordered seq wal first) {i j : ℕ × BatchOp} (hi : i ∈ s.numbered) (hj : j ∈ s.numbered)
    (heq : i.1 = j.1) : i = j := by
  have hnodup : (s.numbered.map Prod.fst).Nodup :=
    pairwise_map.mpr (h.pairwise_numbered.imp fun hlt => hlt.ne)
  exact inj_on_of_nodup_map hnodup hi hj heq

lemma eq_of_mem_both (h : s.Ordered seq wal first) {c d : Commit} (hc : c ∈ s.commits) (hd : d ∈ s.commits)
    (hic : i ∈ c.batches.flatMap inserts) (hid : i ∈ d.batches.flatMap inserts) : c = d := by
  by_contra hne
  have hdisjoint := (nodup_flatMap.mp h.nodup_numbered).2
  have : Std.Symm (Function.onFun List.Disjoint fun c : Commit => c.batches.flatMap inserts) :=
    ⟨fun _ _ hxy => List.Disjoint.symm hxy⟩
  exact hdisjoint.forall hc hd hne hic hid

variable {c : Commit}

theorem mem_table (h : s.Ordered seq wal first) (hfirst : ∀ e ∈ first.chain, e.key.seq ≤ seq) {id : ℕ} {m : MemTable}
    (hm : s.tableAt id = some m) (hid : id ≤ s.frozen.length) (hc : c ∈ s.commits)
    (hi : i ∈ c.batches.flatMap inserts) :
    insertedEntry i ∈ m.chain ↔ c.table = id ∧ i ∈ c.made := by
  rw [h.tables id hid] at hm
  obtain rfl := Option.some.inj hm
  set into := (s.commits.filter fun c => c.table = id).flatMap Commit.made with hinto
  have hsub : into.Sublist s.numbered :=
    (filter_sublist.flatMap Commit.made).trans (Sublist.flatMap_right _ fun c _ => c.made_sublist)
  have hbase : ∀ x ∈ (if id = 0 then first else .empty : MemTable).chain, x.key.seq ≤ seq := by
    intro x hx
    split at hx
    · exact hfirst x hx
    · cases hx
  rw [replayCommits,MemTable.mem_insertAll
    (fun j hj x hx => (hbase x hx).trans_lt (h.seq_lt_of_mem_numbered (hsub.subset hj)))
    (h.pairwise_numbered.sublist hsub)]
  have hnumber := h.seq_lt_of_mem_numbered (mem_numbered hc hi)
  constructor
  · rintro (hold | ⟨j,hj,heq⟩)
    · exact absurd (hbase _ hold) (not_le.mpr hnumber)
    · have hij : i = j := by
        refine h.eq_of_number (mem_numbered hc hi) (hsub.subset hj) ?_
        exact congrArg (fun e : Entry => e.key.seq) heq
      subst hij
      obtain ⟨d,hd,hid'⟩ := mem_flatMap.mp hj
      obtain ⟨hd,htable⟩ := mem_filter.mp hd
      obtain rfl := h.eq_of_mem_both hc hd hi (d.made_sublist.subset hid')
      exact ⟨by simpa using htable,hid'⟩
  · rintro ⟨htable,hmade⟩
    exact .inr ⟨i,mem_flatMap.mpr ⟨c,mem_filter.mpr ⟨hc,by simpa using htable⟩,hmade⟩,rfl⟩

lemma mem_made_iff (h : s.Ordered seq wal first) (hc : c ∈ s.commits) {j : ℕ × BatchOp}
    {rest : List (ℕ × BatchOp)} (htodo : c.todo = j::rest)
    (hi : i ∈ c.batches.flatMap inserts) : i ∈ c.made ↔ i.1<j.1 := by
  have hsplit : c.made ++ j::rest = c.inserts := by
    rw [← htodo]
    exact h.pending c hc
  have hok : c.status.ok = true := by
    by_contra hfailed
    rw [Commit.inserts,if_neg hfailed] at hsplit
    simp at hsplit
  rw [Commit.inserts,if_pos hok] at hsplit
  have hpair : (c.made ++ j::rest).Pairwise fun i j => i.1<j.1 := by
    rw [hsplit]
    exact (pairwise_flatMap.mp h.pairwise_numbered).1 c hc
  obtain ⟨-,hafter,hcross⟩ := pairwise_append.mp hpair
  refine ⟨fun hmade => hcross i hmade j (by simp),fun hlt => ?_⟩
  rw [← hsplit] at hi
  rcases mem_append.mp hi with hmade | hlater
  · exact hmade
  · rcases mem_cons.mp hlater with rfl | hlater
    · exact absurd hlt (lt_irrefl _)
    · exact absurd hlt (not_lt.mpr ((pairwise_cons.mp hafter).1 i hlater).le)

/-- A MemTable shows a part of a batch while the next insert is inside the batch. -/
theorem allOrNone_iff (h : s.Ordered seq wal first) (hfirst : ∀ e ∈ first.chain, e.key.seq ≤ seq) {id : ℕ}
    {m : MemTable} (hm : s.tableAt id = some m) (hid : id ≤ s.frozen.length) (hc : c ∈ s.commits)
    {r : Reservation} (hr : r ∈ c.batches) :
    r.AllOrNone m.chain ↔
      ¬(c.table = id ∧ ∃ j rest, c.todo = j::rest ∧ r.base+1<j.1 ∧ j.1≤r.base+r.batch.length) := by
  have hin : ∀ {i : ℕ × BatchOp}, i ∈ r.inserts → i ∈ c.batches.flatMap inserts :=
    fun hi => mem_flatMap.mpr ⟨r,hr,hi⟩
  have hmem : ∀ {i : ℕ × BatchOp}, i ∈ r.inserts → (insertedEntry i ∈ m.chain ↔ c.table = id ∧ i ∈ c.made) :=
    fun hi => h.mem_table hfirst hm hid hc (hin hi)
  by_cases htable : c.table = id
  · cases htodo : c.todo with
    | nil =>
      refine iff_of_true ?_ (by simp)
      have hmade := Commit.made_of_applied htodo
      cases hok : c.status.ok with
      | true =>
        refine .inl fun i hi => (hmem hi).mpr ⟨htable,?_⟩
        rw [hmade,Commit.inserts,if_pos hok]
        exact hin hi
      | false =>
        refine .inr fun i hi hshown => ?_
        have := ((hmem hi).mp hshown).2
        rw [hmade,Commit.inserts,hok] at this
        cases this
    | cons j rest =>
      have hshown : ∀ {i : ℕ × BatchOp}, i ∈ r.inserts → (insertedEntry i ∈ m.chain ↔ i.1<j.1) := by
        intro i hi
        rw [hmem hi,h.mem_made_iff hc htodo (hin hi)]
        exact and_iff_right htable
      constructor
      · rintro hall ⟨-,j',rest',heq,hlow,hhigh⟩
        obtain ⟨rfl,rfl⟩ := cons.inj heq
        obtain ⟨a,ha,hanumber⟩ := exists_of_number (r := r) (n := r.base+1) (by omega) (by omega)
        obtain ⟨b,hb,hbnumber⟩ := exists_of_number (r := r) (n := j.1) (by omega) hhigh
        rcases hall with hall | hnone
        · exact absurd ((hshown hb).mp (hall b hb)) (by omega)
        · exact hnone a ha ((hshown ha).mpr (by omega))
      · intro hout
        by_cases hlow : r.base+1<j.1
        · have hhigh : r.base+r.batch.length<j.1 := by
            by_contra hle
            exact hout ⟨htable,j,rest,rfl,hlow,not_lt.mp hle⟩
          exact .inl fun i hi => (hshown hi).mpr ((number_of_mem hi).2.trans_lt hhigh)
        · refine .inr fun i hi hshow => ?_
          have := (hshown hi).mp hshow
          have := number_of_mem hi
          omega
  · refine iff_of_true ?_ fun hmid => htable hmid.1
    exact .inr fun i hi hshow => htable ((hmem hi).mp hshow).1

end Ordered

/-- Every MemTable that the reader holds shows it whole batches. -/
def Isolated (s : Writers) (reader : ℕ) : Prop :=
  ∀ n, s.readers reader = some n → ∀ id ≤ n, ∀ m, s.tableAt id = some m → ∀ r ∈ s.handed, r.AllOrNone m.chain

/-- `doWriteGroup` is between two inserts of one batch. -/
def MidBatch (s : Writers) : Prop :=
  ∃ c, s.commit = some c ∧ ∃ j rest, c.todo = j::rest ∧
    ∃ r ∈ c.batches, r.base+1<j.1 ∧ j.1≤r.base+r.batch.length

/-- A reader has no pointer to a MemTable of the future. -/
def Held (s : Writers) : Prop := ∀ reader n, s.readers reader = some n → n ≤ s.frozen.length

lemma Held.maybeFlush (h : s.Held) (opened : Bool) : (s.maybeFlush opened).Held := by
  intro reader n hn
  rw [Writers.maybeFlush] at hn ⊢
  split at hn
  · rename_i hsmall
    rw [if_pos hsmall]
    exact h reader n hn
  · rename_i hlarge
    rw [if_neg hlarge]
    have := h reader n hn
    rw [length_append]
    omega

lemma Held.step (h : s.Held) (hstep : s.Step s') : s'.Held := by
  cases hstep with
  | flush busy applied ok => exact h.maybeFlush _
  | hold free =>
    intro reader n hn
    dsimp only [Writers.hold] at hn
    rw [Function.update_apply] at hn
    split at hn
    · exact (Option.some.inj hn).symm.le
    · exact h reader n hn
  | _ => exact h

def opened (options : Options) (d : Disk) (walSync : Bool) (wal : Bytes) : Writers :=
  start options.memtableSize walSync (DBImpl.recover options d).seq wal (DBImpl.recover options d).memtable.table

theorem isolated_iff (options : Options) (d : Disk) (walSync : Bool) (wal : Bytes) (events : List WriterEvent)
    (s : Writers) (hrun : Runs.run step (opened options d walSync wal) events = some s) (reader : ℕ) :
    s.Isolated reader ↔ ¬(s.readers reader = some s.frozen.length ∧ s.MidBatch) := by
  have hordered : s.Ordered _ wal _ := reached (fun _ _ h hstep => h.step hstep) hrun (Ordered.start ..)
  have hheld : s.Held := by
    refine reached (fun _ _ h hstep => h.step hstep) hrun ?_
    intro reader n hn
    cases hn
  have hfirst : ∀ e ∈ (DBImpl.recover options d).memtable.table.chain,
      e.key.seq≤(DBImpl.recover options d).seq :=
    fun e he => (DBImpl.replayed_seq_lt options d e he).le
  constructor
  · rintro hisolated ⟨hholds,c,hc,j,rest,htodo,r,hr,hinside⟩
    have hin : c ∈ s.commits := by simp [commits_of_some hc]
    refine (hordered.allOrNone_iff hfirst s.tableAt_length le_rfl hin hr).mp ?_
      ⟨hordered.current c hc,j,rest,htodo,hinside⟩
    exact hisolated _ hholds _ le_rfl _ s.tableAt_length r (mem_flatMap.mpr ⟨c,hin,hr⟩)
  · intro hclear n hn id hid m hm r hr
    obtain ⟨c,hc,hr⟩ := mem_flatMap.mp hr
    have hbound := hheld reader n hn
    refine (hordered.allOrNone_iff hfirst hm (hid.trans hbound) hc hr).mpr ?_
    rintro ⟨htable,j,rest,htodo,hinside⟩
    -- only the call that is going on has inserts left, and it works on the active MemTable
    have hbusy : s.commit = some c := by
      rcases mem_append.mp hc with hold | hnow
      · rw [hordered.settled c hold] at htodo
        cases htodo
      · simpa using hnow
    have hactive : n = s.frozen.length := by
      have := hordered.current c hbusy
      omega
    exact hclear ⟨hactive ▸ hn,c,hbusy,j,rest,htodo,r,hr,hinside⟩

def underWay (inserts : ℕ) : Option Writers :=
  Runs.run step (opened ⟨1000,6⟩ ⟨[],[],⟨none,none,none⟩⟩ true [])
    ([.takePointers 0,.enter 1 [⟨.put,[1],[7]⟩,⟨.put,[2],[8]⟩] true,.lead 1 .full .full true] ++
      replicate inserts .insert)

theorem isolated_after_both_inserts : ∃ s, underWay 2 = some s ∧ s.Isolated 0 := by
  obtain ⟨s,hs,htodo⟩ : ∃ s, underWay 2 = some s ∧ s.commit.map Commit.todo = some [] :=
    Option.map_eq_some_iff.mp
      (by decide +kernel : (underWay 2).map (fun s => s.commit.map Commit.todo) = some (some []))
  refine ⟨s,hs,(isolated_iff _ _ _ _ _ s hs 0).mpr ?_⟩
  rintro ⟨-,c,hc,j,rest,hnext,-⟩
  rw [hc,Option.map_some,hnext] at htodo
  cases htodo

theorem not_isolated_after_one_insert : ∃ s, underWay 1 = some s ∧ ¬s.Isolated 0 := by
  obtain ⟨s,hs,hview⟩ := Option.map_eq_some_iff.mp (by decide +kernel :
    (underWay 1).map (fun s => (s.readers 0,(s.tableAt 0).map MemTable.chain,s.handed)) =
      some (some 0,some [insertedEntry (1,⟨.put,[1],[7]⟩)],[⟨1,0,[⟨.put,[1],[7]⟩,⟨.put,[2],[8]⟩]⟩]))
  obtain ⟨hreader,htable,hhanded⟩ := by simpa only [Prod.mk.injEq] using hview
  obtain ⟨m,hm,hchain⟩ := Option.map_eq_some_iff.mp htable
  refine ⟨s,hs,fun hisolated => ?_⟩
  have hall := hisolated 0 hreader 0 le_rfl m hm _ (by rw [hhanded]; exact mem_singleton_self _)
  rw [hchain] at hall
  revert hall
  simp only [AllOrNone]
  decide

end Writers
end TitanKV.Minikv
