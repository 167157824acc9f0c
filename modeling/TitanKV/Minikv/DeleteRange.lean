import TitanKV.Minikv.RangeLoops

/-! `kDeleteRange` among the writes of other connections. The request collects keys from an iterator and
writes their deletions later; what other connections write in between decides whether the result is
that of a deletion at one point. -/
namespace TitanKV.Minikv
open List Server

def groupOps (groups : List WriteGroup) : List BatchOp := groups.flatMap flatten

/-- The value of a key after these operations, if it is live. -/
def contents (ops : List BatchOp) (k : Bytes) : Option Bytes := (lastOp ops k).join

/-- The value of a key if exactly what is live in the range is deleted between `before` and `after`. -/
def deletedAt (start stop : Bytes) (before after : List BatchOp) (k : Bytes) : Option Bytes :=
  (lastOp after k).getD (if InRange start stop k then none else contents before k)

/-- The operations `past` are written before the request begins and the groups `between` after that and
before its own batch; the last of them may be the batches that stand before it in its group. `db` is what
`newIterator` finds: the MemTables whose pointers it takes, with what they hold when they are copied,
and the tables that it opens. -/
def DeletesAtomically (Q : Heap) (db : DBImpl) (start stop : Bytes) (past : List BatchOp)
    (between : List WriteGroup) : Prop :=
  ∃ batch, deleteRangeBatch (db.newIterator Q) start stop = some batch ∧
    ∃ n ≤ between.length, ∀ k, contents (past ++ groupOps between ++ batch) k =
      deletedAt start stop (past ++ groupOps (between.take n)) (groupOps (between.drop n)) k

/-- The keys of the range among these entries, read up to the first entry behind the range. Entries of the
empty key are passed over until another key has come. -/
def shownKeys (start stop : Bytes) (es : List KeyValue) : List Bytes :=
  ((reached start stop es).dropWhile fun e => userKeyOf e = []).map userKeyOf

/-- The last of the groups to write the key is this one, and it leaves a value. -/
def PutLast (groups : List WriteGroup) (k : Bytes) (i : ℕ) : Prop :=
  ∃ group v, groups[i]? = some group ∧ lastOp group.flatten k = some (some v) ∧
    lastOp (groupOps (groups.drop (i+1))) k = none

section Groups
variable {groups : List WriteGroup} {k : Bytes}

@[simp] theorem groupOps_nil : groupOps [] = [] := rfl

lemma groupOps_cons (group : WriteGroup) (groups : List WriteGroup) :
    groupOps (group::groups) = group.flatten ++ groupOps groups := rfl

lemma groupOps_take_drop (n : ℕ) (groups : List WriteGroup) :
    groupOps (groups.take n) ++ groupOps (groups.drop n) = groupOps groups := by
  rw [groupOps,groupOps,← flatMap_append,take_append_drop,groupOps]

lemma exists_putLast {v : Bytes} (h : lastOp (groupOps groups) k = some (some v)) : ∃ i, PutLast groups k i := by
  induction groups with
  | nil => cases h
  | cons group groups ih =>
    rw [groupOps_cons,lastOp_append] at h
    cases hrest : lastOp (groupOps groups) k with
    | some r =>
      rw [hrest,Option.some_or] at h
      obtain ⟨i,hi⟩ := ih (hrest.trans h)
      exact ⟨i+1,hi⟩
    | none =>
      rw [hrest,Option.none_or] at h
      exact ⟨0,group,v,rfl,h,hrest⟩

variable {i n : ℕ}

lemma lastOp_drop_eq_none (hin : i≤n) (h : lastOp (groupOps (groups.drop i)) k = none) :
    lastOp (groupOps (groups.drop n)) k = none := by
  have hsplit := groupOps_take_drop (n-i) (groups.drop i)
  rw [drop_drop,Nat.add_sub_cancel' hin] at hsplit
  rw [← hsplit,lastOp_append,Option.or_eq_none_iff] at h
  exact h.1

lemma PutLast.lastOp_drop (h : PutLast groups k i) (hn : n ≤ i) :
    ∃ v, lastOp (groupOps (groups.drop n)) k = some (some v) := by
  obtain ⟨group,v,hgroup,hlast,hnone⟩ := h
  have hcons : groups.drop i = group::groups.drop (i+1) := by
    obtain ⟨hi,rfl⟩ := List.getElem?_eq_some_iff.mp hgroup
    exact drop_eq_getElem_cons hi
  have hsplit := groupOps_take_drop (i-n) (groups.drop n)
  rw [drop_drop,Nat.add_sub_cancel' hn,hcons,groupOps_cons] at hsplit
  refine ⟨v,?_⟩
  rw [← hsplit,lastOp_append,lastOp_append,hnone,hlast]
  rfl

lemma PutLast.lastOp_take (h : PutLast groups k i) (hn : i<n) :
    ∃ v, lastOp (groupOps (groups.take n)) k = some (some v) := by
  obtain ⟨v,hall⟩ := h.lastOp_drop (Nat.zero_le i)
  obtain ⟨_,_,-,-,hnone⟩ := h
  rw [drop_zero,← groupOps_take_drop n groups,lastOp_append,lastOp_drop_eq_none hn hnone,Option.none_or] at hall
  exact ⟨v,hall⟩

lemma lastOp_deletes (keys : List Bytes) (k : Bytes) :
    lastOp (keys.map fun key => ⟨.delete,key,[]⟩) k = if k ∈ keys then some none else none := by
  induction keys with
  | nil => rfl
  | cons key keys ih =>
    have hcons : (key::keys).map (fun key => (⟨.delete,key,[]⟩ : BatchOp)) =
        [⟨.delete,key,[]⟩] ++ keys.map fun key => ⟨.delete,key,[]⟩ := rfl
    have hone : lastOp [⟨.delete,key,[]⟩] k = if key = k then some none else none := by
      simp [lastOp,BatchOp.effect]
    rw [hcons,lastOp_append,ih,hone]
    by_cases hmem : k ∈ keys
    · simp [hmem]
    · by_cases hkey : key = k
      · simp [hmem,hkey]
      · simp [hmem,hkey,Ne.symm hkey]

end Groups

section Request
variable {Q : Heap} {db : DBImpl} {start stop : Bytes} {es : List KeyValue}

/-- Each run of one key has a front, unless it is the key remembered at the begin. -/
lemma mem_fronts_iff (last k : Bytes) (es : List KeyValue) : k ∈ (fronts last es).map userKeyOf ↔
    k ∈ (es.dropWhile fun e => userKeyOf e = last).map userKeyOf := by
  induction es generalizing last with
  | nil => rfl
  | cons e es ih =>
    rw [fronts,keepNewest,dropWhile_cons]
    by_cases hlast : userKeyOf e = last
    · rw [if_pos hlast,if_pos (decide_eq_true hlast)]
      exact ih last
    · rw [if_neg hlast,if_neg Bool.false_ne_true,if_neg (by simpa using hlast),map_cons,map_cons,mem_cons,mem_cons]
      refine or_congr_right' fun hne => (ih _).trans ?_
      -- behind the front the entries of its key are left out, and another key is not among them
      nth_rewrite 2 [← takeWhile_append_dropWhile (p := fun x => userKeyOf x = userKeyOf e) (l := es)]
      rw [map_append,mem_append]
      refine ⟨.inr,fun h => h.resolve_left fun hmem => ?_⟩
      obtain ⟨x,hx,rfl⟩ := mem_map.mp hmem
      exact hne (of_decide_eq_true (all_eq_true.mp all_takeWhile x hx))

lemma deleteRangeBatch_eq (h : (db.newIterator Q).seekToFirst.Presents es) (start stop : Bytes) :
    ∃ keys : List Bytes, deleteRangeBatch (db.newIterator Q) start stop =
      some (keys.map fun key => ⟨.delete,key,[]⟩) ∧ (∀ k, k ∈ keys ↔ k ∈ shownKeys start stop es) ∧
      ∀ k ∈ keys, InRange start stop k := by
  obtain ⟨it,-,hloop⟩ := @rangeLoop_of_presents Q _ _ start stop _ tombstoned h [] []
    _ (Nat.lt_succ_of_le (h.length_le_of_ready (db.ready_newIterator Q)))
  refine ⟨(fronts [] (reached start stop es)).map userKeyOf,?_,fun k => mem_fronts_iff [] k _,?_⟩
  · rw [deleteRangeBatch,deleteRangeLoop_eq_rangeLoop,hloop,map_map]
    exact congrArg some (congrFun filterMap_eq_map _)
  · intro k hk
    obtain ⟨e,he,rfl⟩ := mem_map.mp hk
    exact (mem_ranged ((keepNewest_sublist _ _ _ _).subset he)).2

end Request

section Points
variable {start stop : Bytes} {keys : List Bytes} {past : List BatchOp} {between : List WriteGroup}

lemma contents_append_deletes (ops : List BatchOp) (keys : List Bytes) (k : Bytes) :
    contents (ops ++ keys.map fun key => ⟨.delete,key,[]⟩) k = if k ∈ keys then none else contents ops k := by
  rw [contents,lastOp_append,lastOp_deletes,contents]
  split <;> rfl

/-- What it takes that the deletions have the effect of a deletion of the range at one point: behind it
no key that they delete is put, and a key of the range that they leave alone is not live there unless it
is written behind it. -/
lemma sameAt_iff (hrange : ∀ k ∈ keys, InRange start stop k) (n : ℕ) :
    (∀ k, contents (past ++ groupOps between ++ keys.map fun key => ⟨.delete,key,[]⟩) k =
      deletedAt start stop (past ++ groupOps (between.take n)) (groupOps (between.drop n)) k) ↔
    (∀ k ∈ keys, ∀ v, lastOp (groupOps (between.drop n)) k ≠ some (some v)) ∧
      ∀ k, InRange start stop k → k ∉ keys → lastOp (groupOps (between.drop n)) k = none →
        contents (past ++ groupOps (between.take n)) k = none := by
  have hall : ∀ k, contents (past ++ groupOps between) k = (lastOp (groupOps (between.drop n)) k).getD
      (contents (past ++ groupOps (between.take n)) k) := by
    intro k
    rw [contents,← groupOps_take_drop n between,← append_assoc,lastOp_append,contents]
    cases lastOp (groupOps (between.drop n)) k <;> rfl
  constructor
  · intro h
    constructor
    · intro k hk v hput
      have hsame := h k
      rw [contents_append_deletes,if_pos hk,deletedAt,hput] at hsame
      cases hsame
    · intro k hin hk hnone
      have hsame := h k
      rwa [contents_append_deletes,if_neg hk,hall,deletedAt,hnone,if_pos hin] at hsame
  · rintro ⟨hkeys,hothers⟩ k
    rw [contents_append_deletes,deletedAt]
    by_cases hk : k ∈ keys
    · rw [if_pos hk,if_pos (hrange k hk)]
      cases hlast : lastOp (groupOps (between.drop n)) k with
      | none => rfl
      | some r =>
        cases r with
        | none => rfl
        | some v => exact (hkeys k hk v hlast).elim
    · rw [if_neg hk,hall]
      cases hlast : lastOp (groupOps (between.drop n)) k with
      | some r => rfl
      | none =>
        by_cases hin : InRange start stop k
        · rw [if_pos hin]
          exact hothers k hin hk hlast
        · rw [if_neg hin]

/-- The first point behind which no deleted key is put comes right behind such a put, unless it is the
first of all. -/
lemma exists_first_point (keys : List Bytes) (between : List WriteGroup) : ∃ n ≤ between.length,
    (∀ k ∈ keys, ∀ v, lastOp (groupOps (between.drop n)) k ≠ some (some v)) ∧
      ∀ m, n = m+1 → ∃ k ∈ keys, PutLast between k m := by
  induction between with
  | nil => exact ⟨0,le_rfl,fun k _ v h => (by cases h),fun m hm => (by omega)⟩
  | cons group between ih =>
    obtain ⟨n,hn,hnone,hfirst⟩ := ih
    cases n with
    | succ m =>
      obtain ⟨k,hk,g,v,hput⟩ := hfirst m rfl
      refine ⟨m+2,by simpa using hn,hnone,fun m' hm' => ⟨k,hk,g,v,?_⟩⟩
      obtain rfl : m' = m+1 := by omega
      exact hput
    | zero =>
      by_cases hput : ∃ k ∈ keys, ∃ v, lastOp group.flatten k = some (some v) ∧ lastOp (groupOps between) k = none
      · obtain ⟨k,hk,v,hlast,hrest⟩ := hput
        refine ⟨1,by simp,hnone,fun m hm => ⟨k,hk,group,v,?_⟩⟩
        obtain rfl : m = 0 := by omega
        exact ⟨rfl,hlast,hrest⟩
      · refine ⟨0,by simp,?_,fun m hm => by omega⟩
        intro k hk v hlast
        rw [drop_zero,groupOps_cons,lastOp_append] at hlast
        cases hrest : lastOp (groupOps between) k with
        | none =>
          rw [hrest,Option.none_or] at hlast
          exact hput ⟨k,hk,v,hlast,hrest⟩
        | some r =>
          rw [hrest,Option.some_or] at hlast
          exact hnone k hk v (hrest.trans hlast)

end Points

/-- The request deletes atomically if there is a point behind which no group leaves a value for a key that is
shown, and at which every other key of the range is gone or about to be written. -/
lemma deletesAtomically_iff_point {Q : Heap} {db : DBImpl} {es : List KeyValue}
    (h : (db.newIterator Q).seekToFirst.Presents es) (start stop : Bytes) (past : List BatchOp)
    (between : List WriteGroup) : DeletesAtomically Q db start stop past between ↔ ∃ n ≤ between.length,
      (∀ k ∈ shownKeys start stop es, ∀ v, lastOp (groupOps (between.drop n)) k ≠ some (some v)) ∧
        ∀ k, InRange start stop k → k ∉ shownKeys start stop es → lastOp (groupOps (between.drop n)) k = none →
          contents (past ++ groupOps (between.take n)) k = none := by
  obtain ⟨keys,hbatch,hkeys,hrange⟩ := deleteRangeBatch_eq h start stop
  simp only [← hkeys,← sameAt_iff hrange]
  constructor
  · rintro ⟨batch,hbatch',hpoint⟩
    obtain rfl := Option.some.inj (hbatch.symm.trans hbatch')
    exact hpoint
  · exact fun hpoint => ⟨_,hbatch,hpoint⟩

/-- The iterator presents a list of entries, and the request has the effect of a deletion of the range at one point
exactly if every key of the range that is live when it begins and that its iterator does not show is written by
another group before its own, and every group that leaves a value for a key that is shown comes before every group
that leaves one for a key of the range that is not. -/
theorem deletesAtomically_iff (Q : Heap) (db : DBImpl) (start stop : Bytes) (past : List BatchOp)
    (between : List WriteGroup) : ∃ es, (db.newIterator Q).seekToFirst.Presents es ∧
      (DeletesAtomically Q db start stop past between ↔
        (∀ k, InRange start stop k → k ∉ shownKeys start stop es → contents past k ≠ none →
          lastOp (groupOps between) k ≠ none) ∧
        ∀ k ∈ shownKeys start stop es, ∀ k', InRange start stop k' → k' ∉ shownKeys start stop es →
          ∀ i j, PutLast between k i → PutLast between k' j → i<j) := by
  obtain ⟨es,hes⟩ := (db.ready_newIterator Q).exists_presents
  refine ⟨es,hes,(deletesAtomically_iff_point hes start stop past between).trans ?_⟩
  constructor
  · rintro ⟨n,hn,hkeys,hothers⟩
    constructor
    · intro k hin hk hlive hnone
      have hsplit := groupOps_take_drop n between
      rw [← hsplit,lastOp_append,Option.or_eq_none_iff] at hnone
      apply hlive
      have hgone := hothers k hin hk hnone.1
      rwa [contents,lastOp_append,hnone.2,Option.none_or] at hgone
    · intro k hk k' hin hk' i j hi hj
      have hbefore : i<n := by
        by_contra hle
        obtain ⟨v,hv⟩ := hi.lastOp_drop (not_lt.mp hle)
        exact hkeys k hk v hv
      have hbehind : n≤j := by
        by_contra hlt
        obtain ⟨v,hv⟩ := hj.lastOp_take (not_le.mp hlt)
        obtain ⟨_,_,-,-,hnone⟩ := hj
        have hgone := hothers k' hin hk' (lastOp_drop_eq_none (by omega) hnone)
        rw [contents,lastOp_append,hv] at hgone
        cases hgone
      omega
  · rintro ⟨hcovered,horder⟩
    obtain ⟨n,hn,hkeys,hfirst⟩ := exists_first_point (shownKeys start stop es) between
    refine ⟨n,hn,hkeys,?_⟩
    intro k hin hk hnone
    rw [contents,lastOp_append]
    cases htake : lastOp (groupOps (between.take n)) k with
    | none =>
      by_contra hlive
      apply hcovered k hin hk hlive
      rw [← groupOps_take_drop n between,lastOp_append,hnone,htake]
      rfl
    | some r =>
      cases r with
      | none => rfl
      | some v =>
        -- the group that put the key comes before the point, behind the one that put a shown key
        have hall : lastOp (groupOps between) k = some (some v) := by
          rw [← groupOps_take_drop n between,lastOp_append,hnone,htake]
          rfl
        obtain ⟨j,hj⟩ := exists_putLast hall
        have hlt : j<n := by
          by_contra hle
          obtain ⟨v',hv'⟩ := hj.lastOp_drop (not_lt.mp hle)
          rw [hnone] at hv'
          cases hv'
        obtain ⟨m,rfl⟩ := Nat.exists_eq_succ_of_ne_zero (Nat.ne_zero_of_lt hlt)
        obtain ⟨k₁,hk₁,hm⟩ := hfirst m rfl
        have := horder k₁ hk₁ k hin hk m j hm hj
        omega

/-- A key is put before a request for the range from 97 to 100 takes its iterator. Then another key of
the range is put, and the first one is overwritten. -/
theorem not_deletesAtomically_of_insert_and_overwrite :
    ¬ DeletesAtomically sortedHeap ((DBImpl.fresh ⟨100,6⟩).doWriteGroup [[⟨.put,[97],[1]⟩]]) [97] [100]
      [⟨.put,[97],[1]⟩] [[[⟨.put,[98],[2]⟩]],[[⟨.put,[97],[3]⟩]]] := by
  rintro ⟨batch,hbatch,n,hn,hsame⟩
  have hdelete : deleteRangeBatch (((DBImpl.fresh ⟨100,6⟩).doWriteGroup [[⟨.put,[97],[1]⟩]]).newIterator
      sortedHeap) [97] [100] = some [⟨.delete,[97],[]⟩] := by decide +kernel
  obtain rfl := Option.some.inj (hdelete.symm.trans hbatch)
  have hfirst := hsame [97]
  have hsecond := hsame [98]
  have hcases : n = 0 ∨ n = 1 ∨ n = 2 := by
    simp only [length_cons,length_nil] at hn
    omega
  rcases hcases with rfl | rfl | rfl
  · revert hfirst
    decide
  · revert hfirst
    decide
  · revert hsecond
    decide

end TitanKV.Minikv
