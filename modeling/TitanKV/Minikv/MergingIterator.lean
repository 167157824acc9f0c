import TitanKV.Library.HeadMerge
import TitanKV.Library.PriorityQueue
import TitanKV.Minikv.CompactionFaults

/-! Iterators over snapshots and their merge through a heap. The heap compares encoded keys byte by byte,
while the snapshots are sorted by `InternalKeyCompare`. -/
namespace TitanKV.Minikv
open List Function

/-- `MemTableIterator` and `SSTableIterator`: entries that were copied, and a position in them. -/
structure SnapshotIterator where
  entries : List KeyValue
  index : ℕ
  status : Status

namespace SnapshotIterator

def ofMemTable (entries : List KeyValue) : SnapshotIterator := ⟨sortByKey entries,0,.Ok⟩

def ofScan (scanned : Status × List KeyValue) : SnapshotIterator :=
  if scanned.1.ok then ⟨sortByKey scanned.2,0,.Ok⟩ else ⟨scanned.2,0,scanned.1⟩

variable (it : SnapshotIterator)

def valid : Bool := it.status.ok && it.index < it.entries.length

def seekToFirst : SnapshotIterator := { it with index := 0 }

def seek (target : Bytes) : SnapshotIterator :=
  { it with index := (it.entries.takeWhile fun e => internalKeyCompare e.1 target = .lt).length }

def next : SnapshotIterator := if it.valid then { it with index := it.index+1 } else it

def key : Bytes := if it.valid then (it.entries[it.index]?.getD ([],[])).1 else []

def value : Bytes := if it.valid then (it.entries[it.index]?.getD ([],[])).2 else []

def rest : List KeyValue := if it.status.ok then it.entries.drop it.index else []

end SnapshotIterator

structure HeapItem where
  childIndex : ℕ
  key : Bytes
  deriving DecidableEq, Repr

/-- The heap's order: `a` is not greater than `b`. -/
def HeapItem.Le (a b : HeapItem) : Prop := compare a.key b.key ≠ .gt

instance : DecidableRel HeapItem.Le := fun _ _ => inferInstanceAs (Decidable (_ ≠ _))

instance : IsTrans HeapItem HeapItem.Le where
  trans _ _ _ hab hbc :=
    Ordering.isLE_iff_ne_gt.mp
      (Std.TransCmp.isLE_trans (Ordering.isLE_iff_ne_gt.mpr hab) (Ordering.isLE_iff_ne_gt.mpr hbc))

instance : Std.Total HeapItem.Le where
  total a b := by
    by_cases hab : compare a.key b.key = .gt
    · refine .inr ?_
      rw [HeapItem.Le,Std.OrientedCmp.lt_of_gt hab]
      exact nofun
    · exact .inl hab

abbrev Heap := PriorityQueue.{0,0} HeapItem HeapItem.Le

/-- One heap among those that the library may provide. -/
def sortedHeap : Heap := PriorityQueue.sorted HeapItem.Le

structure MergingIterator (Q : Heap) where
  children : List SnapshotIterator
  heap : Q.Carrier
  current : Option ℕ
  status : Status

namespace MergingIterator
variable {Q : Heap}

/-- The first status of a child that is not ok. -/
def childStatus (children : List SnapshotIterator) : Status :=
  ((children.map SnapshotIterator.status).find? fun s => !s.ok).getD .Ok

def ofChildren (Q : Heap) (children : List SnapshotIterator) : MergingIterator Q :=
  ⟨children,Q.empty,none,childStatus children⟩

variable (it : MergingIterator Q)

def pushChild (i : ℕ) : MergingIterator Q :=
  match it.children[i]? with
  | none => it
  | some c => if c.valid then { it with heap := Q.push ⟨i,c.key⟩ it.heap } else it

def settle : MergingIterator Q := { it with current := (Q.top it.heap).map HeapItem.childIndex }

def rebuildHeap : MergingIterator Q :=
  ((range it.children.length).foldl pushChild { it with heap := Q.empty }).settle

def valid : Bool := it.status.ok && (it.current.bind fun i => it.children[i]?).any SnapshotIterator.valid

def seekToFirst : MergingIterator Q :=
  { it with children := it.children.map SnapshotIterator.seekToFirst }.rebuildHeap

def seek (target : Bytes) : MergingIterator Q :=
  { it with children := it.children.map fun c : SnapshotIterator => c.seek target }.rebuildHeap

def key : Bytes :=
  if it.valid then ((it.current.bind fun i => it.children[i]?).map SnapshotIterator.key).getD [] else []

def value : Bytes :=
  if it.valid then ((it.current.bind fun i => it.children[i]?).map SnapshotIterator.value).getD [] else []

def advance (i : ℕ) : MergingIterator Q :=
  { it with heap := Q.pop it.heap, children := it.children.modify i SnapshotIterator.next }.pushChild i

def skip (cur : Bytes) : ℕ → MergingIterator Q → MergingIterator Q
  | 0,it => it
  | fuel+1,it =>
    match Q.top it.heap with
    | none => it
    | some item => if item.key = cur then skip cur fuel (it.advance item.childIndex) else it

/-- How many entries are left in the children; each round of the loop takes one. -/
def remaining : ℕ := (it.children.map fun c => c.rest.length).sum

def next : MergingIterator Q := if it.valid then (skip it.key it.remaining it).settle else it

def statusOf : Status := if it.status.ok then childStatus it.children else it.status

def rests (i : ℕ) : List KeyValue := (it.children[i]?.map SnapshotIterator.rest).getD []

end MergingIterator

variable {it : SnapshotIterator}

lemma SnapshotIterator.valid_eq_false (h : it.rest = []) : it.valid = false := by
  rw [rest] at h
  rw [valid]
  cases hok : it.status.ok with
  | false => rfl
  | true =>
    rw [hok,if_pos rfl,drop_eq_nil_iff] at h
    simpa using h

lemma SnapshotIterator.rest_seekToFirst (h : it.status.ok = true) :
    it.seekToFirst.rest = it.entries :=
  if_pos h

lemma SnapshotIterator.of_rest {x : KeyValue} {xs : List KeyValue} (h : it.rest = x::xs) :
    it.valid = true ∧ it.key = x.1 ∧ it.value = x.2 ∧ it.next.rest = xs := by
  rw [rest] at h
  split at h
  · rename_i hok
    have hget : it.entries[it.index]? = some x := by
      have hdrop : (it.entries.drop it.index)[0]? = it.entries[it.index+0]? := getElem?_drop
      rw [h] at hdrop
      simpa using hdrop.symm
    have hvalid : it.valid = true := by
      obtain ⟨hlt,-⟩ := List.getElem?_eq_some_iff.mp hget
      rw [valid,hok,decide_eq_true hlt]
      rfl
    refine ⟨hvalid,?_,?_,?_⟩
    · rw [key,if_pos hvalid,hget]
      rfl
    · rw [value,if_pos hvalid,hget]
      rfl
    · rw [next,if_pos hvalid,rest,if_pos hok,← drop_drop,h]
      rfl
  · cases h

namespace MergingIterator
variable {Q : Heap} {it : MergingIterator Q}

variable {i : ℕ}

lemma pushChild_of_nil (h : it.rests i = []) : it.pushChild i = it := by
  rw [pushChild]
  rw [rests] at h
  split
  · rfl
  · rename_i c hc
    rw [hc] at h
    rw [if_neg (by rw [c.valid_eq_false h]; exact Bool.false_ne_true)]

variable {xs : List KeyValue} {x : KeyValue}

lemma pushChild_of_cons (h : it.rests i = x::xs) :
    it.pushChild i = { it with heap := Q.push ⟨i,x.1⟩ it.heap } := by
  rw [pushChild]
  rw [rests] at h
  split
  · rename_i hnone
    rw [hnone] at h
    cases h
  · rename_i c hc
    rw [hc] at h
    obtain ⟨hvalid,hkey,-⟩ := c.of_rest h
    rw [if_pos hvalid,hkey]

@[simp] theorem children_pushChild (i : ℕ) : (it.pushChild i).children = it.children := by
  cases h : it.rests i with
  | nil => rw [pushChild_of_nil h]
  | cons x xs => rw [pushChild_of_cons h]

@[simp] theorem status_pushChild (i : ℕ) : (it.pushChild i).status = it.status := by
  cases h : it.rests i with
  | nil => rw [pushChild_of_nil h]
  | cons x xs => rw [pushChild_of_cons h]

lemma rests_congr {it' : MergingIterator Q} (h : it'.children = it.children) : it'.rests = it.rests := by
  funext i
  rw [rests,rests,h]

/-- The item of a child that is not at its end. -/
def IsHead (rests : ℕ → List KeyValue) (item : HeapItem) : Prop :=
  ∃ x xs, rests item.childIndex = x::xs ∧ item.key = x.1

/-- The heap has one item for every child that is not at its end. -/
structure Loaded (it : MergingIterator Q) : Prop where
  status : it.status.ok = true
  children : ∀ c ∈ it.children, c.status.ok = true
  nodup : (Q.items it.heap).Nodup
  items : ∀ item, item ∈ Q.items it.heap ↔ IsHead it.rests item

variable {item : HeapItem}

lemma mem_items_pushChild : item ∈ Q.items (it.pushChild i).heap ↔
    item ∈ Q.items it.heap ∨ item.childIndex = i ∧ IsHead it.rests item := by
  cases h : it.rests i with
  | nil =>
    rw [pushChild_of_nil h]
    refine ⟨.inl,?_⟩
    rintro (hitem | ⟨rfl,x,xs,hx,-⟩)
    · exact hitem
    · rw [h] at hx
      cases hx
  | cons x xs =>
    rw [pushChild_of_cons h,Q.items_push,Multiset.mem_cons,or_comm]
    refine or_congr_right ⟨?_,?_⟩
    · rintro rfl
      exact ⟨rfl,x,xs,h,rfl⟩
    · rintro ⟨rfl,y,ys,hy,hkey⟩
      rw [h] at hy
      obtain ⟨rfl,-⟩ := cons.inj hy
      rw [← hkey]

lemma nodup_items_pushChild (h : (Q.items it.heap).Nodup)
    (hnew : ∀ item ∈ Q.items it.heap, item.childIndex ≠ i) : (Q.items (it.pushChild i).heap).Nodup := by
  cases hrest : it.rests i with
  | nil => rwa [pushChild_of_nil hrest]
  | cons x xs =>
    rw [pushChild_of_cons hrest,Q.items_push]
    exact Multiset.nodup_cons.mpr ⟨fun hmem => hnew _ hmem rfl,h⟩

lemma items_foldl_pushChild (h : Q.items it.heap = 0) (n : ℕ) :
    let it' := (range n).foldl pushChild it
    it'.children = it.children ∧ it'.status = it.status ∧ (Q.items it'.heap).Nodup ∧
      ∀ item, item ∈ Q.items it'.heap ↔ item.childIndex<n ∧ IsHead it.rests item := by
  induction n with
  | zero => simp [h]
  | succ n ih =>
    obtain ⟨hchildren,hstatus,hnodup,hitems⟩ := ih
    rw [range_succ,foldl_append]
    simp only [foldl_cons,foldl_nil,children_pushChild,status_pushChild]
    refine ⟨hchildren,hstatus,nodup_items_pushChild hnodup ?_,?_⟩
    · intro item hitem
      exact ((hitems item).mp hitem).1.ne
    · intro item
      rw [mem_items_pushChild,hitems,rests_congr hchildren,← or_and_right,Nat.lt_succ_iff_lt_or_eq]

theorem loaded_rebuildHeap (hstatus : it.status.ok = true) (hchildren : ∀ c ∈ it.children, c.status.ok = true) :
    it.rebuildHeap.Loaded ∧ it.rebuildHeap.rests = it.rests := by
  obtain ⟨hsame,hstatus',hnodup,hitems⟩ :=
    @items_foldl_pushChild Q { it with heap := Q.empty } Q.items_empty it.children.length
  have hrests : it.rebuildHeap.rests = it.rests := rests_congr hsame
  refine ⟨⟨hstatus' ▸ hstatus,?_,hnodup,?_⟩,hrests⟩
  · intro c hc
    exact hchildren c (hsame ▸ hc)
  · intro item
    rw [hrests]
    refine (hitems item).trans ⟨And.right,fun hhead => ⟨?_,hhead⟩⟩
    obtain ⟨x,xs,hx,-⟩ := hhead
    by_contra hle
    rw [rests,getElem?_eq_none (Nat.le_of_not_lt hle)] at hx
    cases hx

lemma loaded_moved (hstatus : it.status.ok = true) (hchildren : ∀ c ∈ it.children, c.status.ok = true)
    {f : SnapshotIterator → SnapshotIterator} (hkeeps : ∀ c, (f c).status = c.status) :
    { it with children := it.children.map f }.rebuildHeap.Loaded ∧ ∀ i,
      { it with children := it.children.map f }.rebuildHeap.rests i =
        (it.children[i]?.map fun c => (f c).rest).getD [] := by
  obtain ⟨hloaded,hrests⟩ := @loaded_rebuildHeap Q { it with children := it.children.map f } hstatus (by
    intro c hc
    obtain ⟨c',hc',rfl⟩ := mem_map.mp hc
    rw [hkeeps]
    exact hchildren c' hc')
  refine ⟨hloaded,fun i => ?_⟩
  rw [hrests,rests,getElem?_map,Option.map_map]
  rfl

/-- A round of the loop takes the first entry of one child. -/
lemma rests_modify (h : it.rests i = x::xs) (heap : Q.Carrier) :
    { it with heap := heap, children := it.children.modify i SnapshotIterator.next }.rests =
      Function.update it.rests i xs := by
  funext j
  rw [rests,getElem?_modify]
  by_cases hj : i = j
  · subst hj
    rw [rests] at h
    cases hc : it.children[i]? with
    | none =>
      rw [hc] at h
      cases h
    | some c =>
      rw [hc] at h
      simpa using (c.of_rest h).2.2.2
  · rw [update_of_ne (Ne.symm hj)]
    simp [hj,rests]

lemma remaining_modify (h : it.rests i = x::xs) :
    ((it.children.modify i SnapshotIterator.next).map fun c => c.rest.length).sum + 1 = it.remaining := by
  rw [remaining]
  rw [rests] at h
  generalize it.children = children at h
  induction children generalizing i with
  | nil => cases h
  | cons c children ih =>
    cases i with
    | zero =>
      have hnext := (c.of_rest h).2.2.2
      have hrest : c.rest = x::xs := h
      simp only [modify_zero_cons,map_cons,sum_cons,hnext,hrest,length_cons]
      omega
    | succ i =>
      have htail := ih h
      simp only [modify_succ_cons,map_cons,sum_cons]
      omega

theorem Loaded.advance (h : it.Loaded) (htop : Q.top it.heap = some item) :
    ∃ x xs, it.rests item.childIndex = x::xs ∧ item.key = x.1 ∧
      (it.advance item.childIndex).rests = Function.update it.rests item.childIndex xs ∧
      (it.advance item.childIndex).remaining + 1 = it.remaining ∧ (it.advance item.childIndex).Loaded := by
  have hpop := Q.items_of_top _ _ htop
  obtain ⟨x,xs,hx,hkey⟩ := (h.items item).mp (by rw [hpop]; exact Multiset.mem_cons_self _ _)
  have hrests := rests_modify hx (Q.pop it.heap)
  have hchildren : (it.advance item.childIndex).children =
      it.children.modify item.childIndex SnapshotIterator.next := children_pushChild _
  have hadvance : (it.advance item.childIndex).rests = Function.update it.rests item.childIndex xs :=
    (rests_congr (children_pushChild _)).trans hrests
  obtain ⟨hgone,hnodup⟩ := Multiset.nodup_cons.mp (hpop ▸ h.nodup)
  -- the child that was popped has no other item
  have hother : ∀ item' ∈ Q.items (Q.pop it.heap), item'.childIndex ≠ item.childIndex := by
    intro item' hitem' heq
    obtain ⟨y,ys,hy,hkey'⟩ := (h.items item').mp (by rw [hpop]; exact Multiset.mem_cons_of_mem hitem')
    rw [heq,hx] at hy
    have hsame : item' = item := by
      obtain ⟨i,k⟩ := item
      obtain ⟨i',k'⟩ := item'
      simp_all
    exact hgone (hsame ▸ hitem')
  refine ⟨x,xs,hx,hkey,hadvance,?_,?_,?_,?_,?_⟩
  · rw [remaining,hchildren]
    exact remaining_modify hx
  · exact (status_pushChild _).symm ▸ h.status
  · intro c hc
    rw [hchildren] at hc
    obtain ⟨j,hj,rfl⟩ := mem_iff_getElem.mp hc
    have hj' : j < it.children.length := by simpa using hj
    have hok := h.children it.children[j] (getElem_mem hj')
    rw [getElem_modify]
    split
    · rw [SnapshotIterator.next]
      split <;> exact hok
    · exact hok
  · exact nodup_items_pushChild hnodup hother
  · intro item'
    have hpush := @mem_items_pushChild Q
      { it with heap := Q.pop it.heap, children := it.children.modify item.childIndex SnapshotIterator.next }
      item.childIndex item'
    rw [hrests] at hpush
    rw [hadvance]
    refine hpush.trans ⟨?_,?_⟩
    · rintro (hitem' | ⟨-,hhead⟩)
      · have hold := (h.items item').mp (by rw [hpop]; exact Multiset.mem_cons_of_mem hitem')
        rwa [IsHead,update_of_ne (hother item' hitem')]
      · exact hhead
    · intro hhead
      by_cases hchild : item'.childIndex = item.childIndex
      · exact .inr ⟨hchild,hhead⟩
      · rw [IsHead,update_of_ne hchild] at hhead
        have hold := (h.items item').mpr hhead
        rw [hpop] at hold
        rcases Multiset.mem_cons.mp hold with rfl | hold
        · exact absurd rfl hchild
        · exact .inl hold

lemma Loaded.advance_at (h : it.Loaded) {k : Bytes} (htop : Q.top it.heap = some ⟨i,k⟩)
    (hhead : it.rests i = x::xs) :
    (it.advance i).rests = Function.update it.rests i xs ∧ (it.advance i).remaining + 1 = it.remaining ∧
      (it.advance i).Loaded := by
  obtain ⟨y,ys,hy,-,hadvanced⟩ := h.advance htop
  rw [hhead] at hy
  obtain ⟨-,rfl⟩ := cons.inj hy
  exact hadvanced

/-- What every round of the loop of `next` keeps, the loop keeps. -/
lemma skip_invariant {P : MergingIterator Q → Prop} {cur : Bytes}
    (hround : ∀ it item, P it → Q.top it.heap = some item → item.key = cur → P (it.advance item.childIndex))
    (h : P it) (fuel : ℕ) : P (skip cur fuel it) := by
  induction fuel generalizing it with
  | zero => exact h
  | succ fuel ih =>
    rw [MergingIterator.skip]
    split
    · exact h
    · rename_i item htop
      split
      · rename_i hkey
        exact ih (hround it item h htop hkey)
      · exact h

lemma Loaded.loaded_skip (h : it.Loaded) (cur : Bytes) (fuel : ℕ) : (skip cur fuel it).Loaded := by
  refine skip_invariant ?_ h fuel
  intro it item h htop _
  obtain ⟨-,-,-,-,-,-,hloaded⟩ := h.advance htop
  exact hloaded

/-- The loop of `next` ends by its condition: no item with the key is left on top. -/
theorem Loaded.skip (h : it.Loaded) (cur : Bytes) {fuel : ℕ} (hfuel : it.remaining≤fuel) :
    ∀ item, Q.top (MergingIterator.skip cur fuel it).heap = some item → item.key ≠ cur := by
  induction fuel generalizing it with
  | zero =>
    intro item htop
    obtain ⟨-,-,-,-,-,hremaining,-⟩ := h.advance htop
    omega
  | succ fuel ih =>
    rw [MergingIterator.skip]
    split
    · rename_i hnone
      intro item htop
      rw [hnone] at htop
      cases htop
    · rename_i item htop
      split
      · obtain ⟨-,-,-,-,-,hremaining,hloaded⟩ := h.advance htop
        exact ih hloaded (by omega)
      · rename_i hne
        intro item' htop'
        rw [htop] at htop'
        exact Option.some.inj htop' ▸ hne

/-- The iterator is about to run through these entries, and no key is twice in one child. -/
structure Yields (it : MergingIterator Q) (out : List KeyValue) : Prop where
  loaded : it.Loaded
  current : it.current = (Q.top it.heap).map HeapItem.childIndex
  distinct : ∀ i, ((it.rests i).map Prod.fst).Nodup
  emits : HeadMerge.Emits Prod.fst it.rests out

lemma Yields.valid_nil (h : it.Yields []) : it.valid = false := by
  cases h.emits with
  | done hempty =>
    have htop : Q.top it.heap = none := by
      apply Q.top_eq_none_iff.mpr
      apply Multiset.eq_zero_of_forall_notMem
      intro item hitem
      obtain ⟨x,xs,hx,-⟩ := (h.loaded.items item).mp hitem
      rw [hempty] at hx
      cases hx
    rw [valid,h.current,htop]
    simp

lemma skip_of_ne {cur : Bytes} (h : ∀ item, Q.top it.heap = some item → item.key ≠ cur) (fuel : ℕ) :
    MergingIterator.skip cur fuel it = it := by
  cases fuel with
  | zero => rfl
  | succ fuel =>
    rw [MergingIterator.skip]
    split
    · rfl
    · rename_i item htop
      exact if_neg (h item htop)

lemma Loaded.isHead_of_top (h : it.Loaded) (htop : Q.top it.heap = some item) :
    IsHead it.rests item := by
  apply (h.items item).mp
  rw [Q.items_of_top _ _ htop]
  exact Multiset.mem_cons_self _ _

lemma Loaded.rests_of_top_none (h : it.Loaded) (htop : Q.top it.heap = none) (i : ℕ) : it.rests i = [] := by
  cases hi : it.rests i with
  | nil => rfl
  | cons x xs =>
    have hmem := (h.items ⟨i,x.1⟩).mpr ⟨x,xs,hi,rfl⟩
    rw [Q.items_of_top_eq_none _ htop] at hmem
    cases hmem

lemma Loaded.at_current (h : it.Loaded) (hcurrent : it.current = some i)
    (hhead : it.rests i = x::xs) : it.valid = true ∧ it.key = x.1 ∧ it.value = x.2 := by
  obtain ⟨c,hc,hrest⟩ : ∃ c, it.children[i]? = some c ∧ c.rest = x::xs := by
    rw [rests] at hhead
    cases hc : it.children[i]? with
    | none =>
      rw [hc] at hhead
      cases hhead
    | some c =>
      rw [hc] at hhead
      exact ⟨c,rfl,hhead⟩
  obtain ⟨hcvalid,hckey,hcvalue,-⟩ := c.of_rest hrest
  have hchild : (it.current.bind fun i => it.children[i]?) = some c := by rw [hcurrent,Option.bind_some,hc]
  have hvalid : it.valid = true := by
    rw [valid,hchild,h.status]
    exact hcvalid
  refine ⟨hvalid,?_,?_⟩
  · rw [key,if_pos hvalid,hchild]
    exact hckey
  · rw [value,if_pos hvalid,hchild]
    exact hcvalue

lemma Loaded.top_eq (h : it.Loaded) (hhead : it.rests i = x::xs)
    (hleast : ∀ j, j ≠ i → ∀ y ∈ (it.rests j).head?, compare x.1 y.1 = .lt) :
    Q.top it.heap = some ⟨i,x.1⟩ := by
  cases htop : Q.top it.heap with
  | none =>
    rw [h.rests_of_top_none htop] at hhead
    cases hhead
  | some item =>
    obtain ⟨j,k⟩ := item
    obtain ⟨y,ys,hy,rfl⟩ := h.isHead_of_top htop
    by_cases hj : j = i
    · subst hj
      rw [hhead] at hy
      rw [(cons.inj hy).1]
    · have hlt := hleast j hj y (by rw [hy]; rfl)
      exact absurd (Std.OrientedCmp.gt_of_lt hlt) (Q.le_of_top _ _ htop ⟨i,x.1⟩ ((h.items _).mpr ⟨x,xs,hhead,rfl⟩))

variable {out : List KeyValue}

theorem Yields.cons (h : it.Yields (x::out)) :
    it.valid = true ∧ it.key = x.1 ∧ it.value = x.2 ∧ it.next.remaining + 1 = it.remaining ∧
      it.next.Yields out := by
  cases h.emits with
  | @take _ _ xs _ i hhead hleast hnext =>
    have htop := h.loaded.top_eq hhead hleast
    have hcurrent : it.current = some i := by
      rw [h.current,htop]
      rfl
    obtain ⟨hvalid,hkey,hvalue⟩ := h.loaded.at_current hcurrent hhead
    refine ⟨hvalid,hkey,hvalue,?_⟩
    obtain ⟨hrests,hremaining,hloaded⟩ := h.loaded.advance_at htop hhead
    have hnodup := h.distinct i
    rw [hhead,map_cons,nodup_cons] at hnodup
    -- a second item with the key would be of this child or of another one
    have hother : ∀ item, Q.top (it.advance i).heap = some item → item.key ≠ x.1 := by
      intro item hitem heq
      obtain ⟨y,ys,hy,hkey⟩ := hloaded.isHead_of_top hitem
      rw [hrests] at hy
      by_cases hi : item.childIndex = i
      · rw [hi,update_self] at hy
        apply hnodup.1
        rw [hy,← heq,hkey]
        exact mem_cons_self
      · rw [update_of_ne hi] at hy
        have hlt := hleast item.childIndex hi y (by rw [hy]; rfl)
        rw [← hkey,heq,Std.ReflOrd.compare_self] at hlt
        cases hlt
    have hskip : it.next = (it.advance i).settle := by
      rw [next,if_pos hvalid,hkey,← hremaining,MergingIterator.skip,htop]
      dsimp only
      rw [if_pos rfl,skip_of_ne hother]
    rw [hskip]
    refine ⟨hremaining,{ hloaded with },rfl,?_,?_⟩
    · intro j
      change (((it.advance i).rests j).map Prod.fst).Nodup
      rw [hrests]
      by_cases hj : j = i
      · rw [hj,update_self]
        exact hnodup.2
      · rw [update_of_ne hj]
        exact h.distinct j
    · change HeadMerge.Emits Prod.fst (it.advance i).rests out
      rw [hrests]
      exact hnext

lemma childStatus_eq_ok {children : List SnapshotIterator} (h : ∀ c ∈ children, c.status.ok = true) :
    childStatus children = .Ok := by
  rw [childStatus,find?_eq_none.mpr]
  · rfl
  · intro status hstatus
    obtain ⟨c,hc,rfl⟩ := mem_map.mp hstatus
    simp [h c hc]

lemma Loaded.statusOf_ok (h : it.Loaded) : it.statusOf.ok = true := by
  rw [statusOf,if_pos h.status,childStatus_eq_ok h.children]
  rfl

@[simp] theorem children_seekToFirst : it.seekToFirst.children = it.children.map SnapshotIterator.seekToFirst :=
  (@items_foldl_pushChild Q { it with children := _, heap := Q.empty } Q.items_empty _).1

@[simp] theorem status_seekToFirst : it.seekToFirst.status = it.status :=
  (@items_foldl_pushChild Q { it with children := _, heap := Q.empty } Q.items_empty _).2.1

/-- Where all keys differ, an iterator that seeks to the first entry merges its children. -/
theorem yields_seekToFirst (hstatus : it.status.ok = true) (hchildren : ∀ c ∈ it.children, c.status.ok = true)
    (hdistinct : ∀ c ∈ it.children, (c.entries.map Prod.fst).Nodup)
    (hout : HeadMerge.Emits Prod.fst (fun i => (it.children.map SnapshotIterator.entries)[i]?.getD []) out) :
    it.seekToFirst.Yields out := by
  obtain ⟨hloaded,hrests⟩ := loaded_moved hstatus hchildren (f := SnapshotIterator.seekToFirst) fun _ => rfl
  have hsame : it.seekToFirst.rests = fun i => (it.children.map SnapshotIterator.entries)[i]?.getD [] := by
    funext i
    rw [getElem?_map]
    refine (hrests i).trans ?_
    cases hc : it.children[i]? with
    | none => rfl
    | some c => exact c.rest_seekToFirst (hchildren c (mem_of_getElem? hc))
  refine ⟨hloaded,rfl,?_,?_⟩
  · intro i
    rw [hsame]
    dsimp only
    rw [getElem?_map]
    cases hc : it.children[i]? with
    | none => exact nodup_nil
    | some c => exact hdistinct c (mem_of_getElem? hc)
  · rw [hsame]
    exact hout

end MergingIterator
end TitanKV.Minikv
