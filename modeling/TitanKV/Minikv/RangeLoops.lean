import TitanKV.Minikv.ProcessRequest
import TitanKV.Minikv.SSTableLookup

/-! The loops of `kScan` and `kDeleteRange` over an iterator that shows its entries in the order of
`InternalKeyCompare`. Both remember the last user key and begin with the empty one. -/
namespace TitanKV.Minikv
open List

namespace MergingIterator
variable {Q : Heap} {it : MergingIterator Q} {es : List KeyValue}

def opened (Q : Heap) (children : List SnapshotIterator) : MergingIterator Q := (ofChildren Q children).seekToFirst

variable {children : List SnapshotIterator}

lemma status_ok_of_childStatus (h : (childStatus children).ok = true) :
    ∀ c ∈ children, c.status.ok = true := by
  intro c hc
  by_contra hfail
  rw [childStatus] at h
  cases hfind : (children.map SnapshotIterator.status).find? fun s => !s.ok with
  | none => simpa [hfail] using find?_eq_none.mp hfind c.status (mem_map_of_mem hc)
  | some status =>
    rw [hfind,Option.getD_some] at h
    simpa [h] using find?_some hfind

/-- It is ready, or a child could not be read and it shows nothing. -/
lemma ready_or_invalid (Q : Heap) (children : List SnapshotIterator) :
    (opened Q children).seekToFirst.Ready ∨ (opened Q children).seekToFirst.valid = false := by
  by_cases hok : (childStatus children).ok = true
  · refine .inl (ready_seekToFirst (by rw [opened,status_seekToFirst]; exact hok) ?_)
    intro c hc
    rw [opened,children_seekToFirst] at hc
    obtain ⟨c',hc',rfl⟩ := mem_map.mp hc
    exact status_ok_of_childStatus hok c' hc'
  · refine .inr ?_
    have hstatus : (opened Q children).seekToFirst.status = childStatus children := by
      rw [status_seekToFirst,opened,status_seekToFirst]
      rfl
    rw [valid,hstatus]
    simp [hok]

/-- The fuel of the loops is enough. -/
lemma Presents.length_le (h : (opened Q children).seekToFirst.Presents es) :
    es.length≤(opened Q children).seekToFirst.remaining := by
  rcases ready_or_invalid Q children with hready | hinvalid
  · exact h.length_le_of_ready hready
  · cases h with
    | done => exact Nat.zero_le _
    | step hgo =>
      rw [hinvalid] at hgo
      cases hgo

end MergingIterator

/-- The range of a request; an empty end is no bound. -/
def InRange (start stop k : Bytes) : Prop := compare k start ≠ .lt ∧ (stop = [] ∨ compare k stop = .lt)

instance (start stop k : Bytes) : Decidable (InRange start stop k) := inferInstanceAs (Decidable (_ ∧ _))

namespace Server
variable {Q : Heap} {it : MergingIterator Q} {es : List KeyValue} {start stop : Bytes}

/-- The first entry of a user key; a key without a trailer has none. -/
def firstOf (es : List KeyValue) (k : Bytes) : Option KeyValue := es.find? fun e => 8≤e.1.length ∧ userKeyOf e = k

/-- The items are the first entries of the user keys of the range, tombstones apart, in the order of the keys. -/
structure ScansExactly (es : List KeyValue) (start stop : Bytes) (items : List KeyValue) : Prop where
  ordered : items.Pairwise fun a b => compare a.1 b.1 = .lt
  complete : ∀ k v, (k,v) ∈ items ↔ InRange start stop k ∧
    ∃ e, firstOf es k = some e ∧ isTombstone e = false ∧ e.2 = v

/-- The batch has one tombstone for each user key of the range that occurs, and nothing else. -/
def DeletesExactly (es : List KeyValue) (start stop : Bytes) (batch : WriteBatch) : Prop :=
  ∃ keys : List Bytes, batch = keys.map (fun key => ⟨.delete,key,[]⟩) ∧ keys.Nodup ∧
    ∀ k, k ∈ keys ↔ InRange start stop k ∧ ∃ e ∈ es, 8≤e.1.length ∧ userKeyOf e = k

lemma of_firstOf {k : Bytes} {e : KeyValue} (h : firstOf es k = some e) :
    e ∈ es ∧ 8≤e.1.length ∧ userKeyOf e = k := by
  have hmatch := find?_some h
  exact ⟨mem_of_find?_eq_some h,by simpa using hmatch⟩

lemma deleteRangeLoop_eq_rangeLoop (fuel : ℕ) (it : MergingIterator Q) (lastUser : Bytes) (batch : WriteBatch) :
    deleteRangeLoop start stop fuel it lastUser batch =
      (rangeLoop tombstoned start stop fuel it lastUser batch).map Prod.fst := by
  induction fuel generalizing it lastUser batch with
  | zero => rfl
  | succ fuel ih =>
    rw [deleteRangeLoop,rangeLoop]
    simp only [ih,tombstoned,userKeyOf,Option.toList_some,apply_ite (Option.map Prod.fst),Option.map_some]

lemma ranged_eq_filter {es : List KeyValue} (h : KeysAscend userKeyOf es) (start stop : Bytes) :
    ranged userKeyOf start stop es = es.filter fun e => InRange start stop (userKeyOf e) := by
  induction es with
  | nil => rfl
  | cons e es ih =>
    obtain ⟨he,hes⟩ := pairwise_cons.mp h
    rw [ranged_cons,ih hes]
    by_cases hstart : compare (userKeyOf e) start = .lt
    · rw [if_pos hstart,filter_cons_of_neg (by simp [InRange,hstart])]
    · rw [if_neg hstart]
      by_cases hstop : stop = [] ∨ compare (userKeyOf e) stop = .lt
      · rw [if_pos hstop,filter_cons_of_pos (by simpa [InRange,hstart] using hstop)]
      · have hbehind : (e::es).filter (fun e => InRange start stop (userKeyOf e)) = [] := by
          apply filter_eq_nil_iff.mpr
          intro x hx hin
          obtain ⟨-,hin⟩ := of_decide_eq_true hin
          rcases mem_cons.mp hx with rfl | hx
          · exact hstop hin
          · exact hstop (hin.imp_right (compare_lt_of_le_of_lt (he x hx)))
        rw [if_neg hstop,hbehind]

section Sorted
variable (hsorted : es.Pairwise fun a b => internalKeyCompare a.1 b.1 = .lt)
include hsorted

lemma keysAscend_of_sorted : KeysAscend userKeyOf (es.filter fun e => 8≤e.1.length) := by
  refine (hsorted.filter _).imp_of_mem ?_
  intro a b ha hb hlt
  simp only [mem_filter,decide_eq_true_eq] at ha hb
  exact userKey_le_of_lt ha.2 hb.2 hlt

lemma keysAscend_reached (start stop : Bytes) : KeysAscend userKeyOf (reached start stop es) := by
  rw [reached,ranged_eq_filter (keysAscend_of_sorted hsorted)]
  exact (keysAscend_of_sorted hsorted).filter _

/-- The loops take the first entry of every user key of the range but the empty one. -/
lemma mem_fronts_iff {e : KeyValue} : e ∈ fronts [] (reached start stop es) ↔
    userKeyOf e ≠ [] ∧ InRange start stop (userKeyOf e) ∧ firstOf es (userKeyOf e) = some e := by
  have hfind : (reached start stop es).find? (fun x => userKeyOf x = userKeyOf e) = some e ↔
      InRange start stop (userKeyOf e) ∧ firstOf es (userKeyOf e) = some e := by
    rw [reached,ranged_eq_filter (keysAscend_of_sorted hsorted),find?_filter,find?_filter]
    by_cases hin : InRange start stop (userKeyOf e)
    · rw [and_iff_right hin,firstOf]
      refine iff_of_eq (congrArg (· = some e) (congrArg (List.find? · es) ?_))
      funext x
      by_cases hkey : userKeyOf x = userKeyOf e
      · simp [hkey,hin]
      · simp [hkey]
    · constructor
      · intro hfind
        have hmatch := find?_some hfind
        simp [hin] at hmatch
      · exact fun h => (hin h.1).elim
  rw [fronts,mem_keepNewest_iff (keysAscend_reached hsorted start stop) fun x _ => compare_nil_ne_gt _,hfind,
    and_iff_left rfl]

lemma pairwise_fronts (start stop : Bytes) : (fronts [] (reached start stop es)).Pairwise fun a b =>
    compare (userKeyOf a) (userKeyOf b) = .lt :=
  pairwise_keepNewest [] (keysAscend_reached hsorted start stop)

lemma scansExactly_fronts (hempty : ∀ e ∈ es, 8≤e.1.length → InRange start stop (userKeyOf e) → userKeyOf e ≠ []) :
    ScansExactly es start stop ((fronts [] (reached start stop es)).filterMap scanned) := by
  constructor
  · refine (pairwise_fronts hsorted start stop).filterMap _ ?_
    intro a b hlt x hx y hy
    simp only [scanned,Option.ite_none_left_eq_some,Option.some.injEq] at hx hy
    rwa [← hx.2,← hy.2]
  · intro k v
    rw [mem_filterMap]
    constructor
    · rintro ⟨e,he,hscanned⟩
      simp only [scanned,Option.ite_none_left_eq_some,Option.some.injEq,Prod.mk.injEq] at hscanned
      obtain ⟨hlive,rfl,rfl⟩ := hscanned
      obtain ⟨-,hin,hfind⟩ := (mem_fronts_iff hsorted).mp he
      exact ⟨hin,e,hfind,by simpa using hlive,rfl⟩
    · rintro ⟨hin,e,hfind,hlive,rfl⟩
      obtain ⟨hmem,hlong,rfl⟩ := of_firstOf hfind
      exact ⟨e,(mem_fronts_iff hsorted).mpr ⟨hempty e hmem hlong hin,hin,hfind⟩,by simp [scanned,hlive]⟩

lemma deletesExactly_fronts_iff :
    DeletesExactly es start stop ((fronts [] (reached start stop es)).filterMap tombstoned) ↔
      ∀ e ∈ es, 8≤e.1.length → InRange start stop (userKeyOf e) → userKeyOf e ≠ [] := by
  have hbatch : (fronts [] (reached start stop es)).filterMap tombstoned =
      ((fronts [] (reached start stop es)).map userKeyOf).map fun key => (⟨.delete,key,[]⟩ : BatchOp) := by
    rw [map_map]
    exact congrFun filterMap_eq_map' _
  rw [hbatch]
  constructor
  · rintro ⟨keys,hkeys,-,hall⟩ e he hlong hin hnil
    have hsame : (fronts [] (reached start stop es)).map userKeyOf = keys :=
      map_injective_iff.mpr (fun a b h => congrArg BatchOp.key h) hkeys
    have hmem := (hall (userKeyOf e)).mpr ⟨hin,e,he,hlong,rfl⟩
    rw [← hsame,hnil] at hmem
    obtain ⟨x,hx,hkey⟩ := mem_map.mp hmem
    exact ((mem_fronts_iff hsorted).mp hx).1 hkey
  · intro hempty
    refine ⟨_,rfl,?_,?_⟩
    · rw [nodup_iff_pairwise_ne,pairwise_map]
      exact (pairwise_fronts hsorted start stop).imp ne_of_compare_lt
    · intro k
      rw [mem_map]
      constructor
      · rintro ⟨e,he,rfl⟩
        obtain ⟨-,hin,hfind⟩ := (mem_fronts_iff hsorted).mp he
        obtain ⟨hmem,hlong,-⟩ := of_firstOf hfind
        exact ⟨hin,e,hmem,hlong,rfl⟩
      · rintro ⟨hin,e,he,hlong,rfl⟩
        have hsome : (firstOf es (userKeyOf e)).isSome = true := find?_isSome.mpr ⟨e,he,by simp [hlong]⟩
        obtain ⟨x,hx⟩ := Option.isSome_iff_exists.mp hsome
        obtain ⟨-,-,hkey⟩ := of_firstOf hx
        refine ⟨x,(mem_fronts_iff hsorted).mpr ⟨?_,by rwa [hkey],by rwa [hkey]⟩,hkey⟩
        rw [hkey]
        exact hempty e he hlong hin

end Sorted

/-- Both loops treat a range as they should exactly if it does not begin at the empty key or no entry has that
key. -/
theorem rangeLoops_exact_iff {children : List SnapshotIterator}
    (h : (MergingIterator.opened Q children).seekToFirst.Presents es)
    (hsorted : es.Pairwise fun a b => internalKeyCompare a.1 b.1 = .lt) (start stop : Bytes) :
    ((∃ items it', scanLoop start stop ((MergingIterator.opened Q children).seekToFirst.remaining+1)
        (MergingIterator.opened Q children).seekToFirst [] [] = some (items,it') ∧
          ScansExactly es start stop items) ∧
      ∃ batch, deleteRangeBatch (MergingIterator.opened Q children) start stop = some batch ∧
        DeletesExactly es start stop batch) ↔
    (start = [] → ∀ e ∈ es, 8≤e.1.length → userKeyOf e ≠ []) := by
  have hcond : (∀ e ∈ es, 8≤e.1.length → InRange start stop (userKeyOf e) → userKeyOf e ≠ []) ↔
      (start = [] → ∀ e ∈ es, 8≤e.1.length → userKeyOf e ≠ []) := by
    constructor
    · rintro hall rfl e he hlong hnil
      refine hall e he hlong ⟨compare_nil_ne_lt _,?_⟩ hnil
      rw [hnil]
      exact (eq_or_ne stop []).imp_right fun hne => compare_lt_of_ne_gt (compare_nil_ne_gt stop) hne.symm
    · intro hall e he hlong hin hnil
      by_cases hstart : start = []
      · exact hall hstart e he hlong hnil
      · apply hin.1
        rw [hnil]
        exact compare_lt_of_ne_gt (compare_nil_ne_gt start) (Ne.symm hstart)
  have hfuel := Nat.lt_succ_of_le h.length_le
  obtain ⟨it₁,-,hscan⟩ := @rangeLoop_of_presents Q _ _ start stop _ scanned h [] [] _ hfuel
  obtain ⟨it₂,-,hdelete⟩ := @rangeLoop_of_presents Q _ _ start stop _ tombstoned h [] [] _ hfuel
  rw [← hcond,← deletesExactly_fronts_iff hsorted,scanLoop_eq_rangeLoop,deleteRangeBatch,
    deleteRangeLoop_eq_rangeLoop,hscan,hdelete]
  constructor
  · rintro ⟨-,batch,hbatch,hexact⟩
    rwa [← Option.some.inj hbatch] at hexact
  · intro hexact
    exact ⟨⟨_,it₁,rfl,scansExactly_fronts hsorted ((deletesExactly_fronts_iff hsorted).mp hexact)⟩,_,rfl,hexact⟩

def oneEntry (k : InternalKey) (v : Bytes) : MergingIterator sortedHeap :=
  .opened sortedHeap [.ofMemTable [(k.encode,v)]]

/-- A range from the empty key over the key 97. -/
theorem rangeLoops_exact_of_key : ∃ es, (oneEntry ⟨[97],1,.value⟩ [118]).seekToFirst.Presents es ∧
    ∃ items it', scanLoop [] [100] ((oneEntry ⟨[97],1,.value⟩ [118]).seekToFirst.remaining+1)
      (oneEntry ⟨[97],1,.value⟩ [118]).seekToFirst [] [] = some (items,it') ∧ ScansExactly es [] [100] items := by
  have hentry :
    ((oneEntry ⟨[97],1,.value⟩ [118]).seekToFirst.key,(oneEntry ⟨[97],1,.value⟩ [118]).seekToFirst.value) =
      ((⟨[97],1,.value⟩ : InternalKey).encode,[118]) := by decide +kernel
  have hpresents : (oneEntry ⟨[97],1,.value⟩ [118]).seekToFirst.Presents
      [((⟨[97],1,.value⟩ : InternalKey).encode,[118])] :=
    hentry ▸ .step (by decide +kernel) (.done (by decide +kernel))
  exact ⟨_,hpresents,((rangeLoops_exact_iff hpresents (by decide) [] [100]).mpr (by decide +kernel)).1⟩

/-- The iterator shows an entry of the empty key, and neither loop takes it. -/
theorem rangeLoops_skip_emptyKey : (oneEntry ⟨[],1,.value⟩ [118]).seekToFirst.valid = true ∧
    (oneEntry ⟨[],1,.value⟩ [118]).seekToFirst.key = (⟨[],1,.value⟩ : InternalKey).encode ∧
    (scanLoop [] [] 2 (oneEntry ⟨[],1,.value⟩ [118]).seekToFirst [] []).map Prod.fst = some [] ∧
    deleteRangeBatch (oneEntry ⟨[],1,.value⟩ [118]) [] [] = some [] := by
  decide +kernel

end Server
end TitanKV.Minikv
