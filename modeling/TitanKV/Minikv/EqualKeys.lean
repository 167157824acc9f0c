import TitanKV.Minikv.RangeLoops
import Mathlib.Data.List.TakeWhile

/-! Which value a `MergingIterator` shows for a key that several children hold. The heap compares the keys only, so
the item on top is one of those with the least key, and it depends on the heap which one. -/
namespace TitanKV.Minikv
open List Option Prod

namespace MergingIterator
variable {Q : Heap}

def valueAt (es : List KeyValue) (k : Bytes) : Option Bytes := (es.find? fun e => e.1 = k).map snd

/-- The value of the child with the smallest index that has the key, from the target on. -/
def earliest (target : Option Bytes) (children : List SnapshotIterator) (k : Bytes) : Option Bytes :=
  children.findSome? fun c => valueAt (entriesFrom target c) k

/-- With every heap, from every seek on and after any number of steps, the value is that of the earliest child. -/
def EarliestWins (children : List SnapshotIterator) : Prop :=
  ∀ (Q : Heap) (target : Option Bytes) (n : ℕ), (next^[n] ((ofChildren Q children).sought target)).valid = true →
    earliest target children (next^[n] ((ofChildren Q children).sought target)).key =
      some (next^[n] ((ofChildren Q children).sought target)).value

lemma compare_ne_gt_of_mem {y e : KeyValue} {ys : List KeyValue} (hs : KeysAscend fst (y::ys)) (he : e ∈ y::ys) :
    compare y.1 e.1 ≠ .gt := by
  rcases mem_cons.mp he with rfl | he
  · exact compare_ne_gt_of_eq rfl
  · exact (pairwise_cons.mp hs).1 e he

/-- The iterator on its way: what it has taken from the children is below all that is left. -/
structure Reached (start : ℕ → List KeyValue) (it : MergingIterator Q) : Prop where
  ready : it.Ready
  taken : ∀ j, ∃ taken, start j = taken ++ it.rests j ∧ ∀ d ∈ taken, ∀ l, ∀ e ∈ it.rests l, compare d.1 e.1 = .lt

section Reached
variable {start : ℕ → List KeyValue} {it : MergingIterator Q}

variable {e : KeyValue} {j : ℕ}

lemma Ready.least_head (h : it.Ready) (hs : ∀ j, KeysAscend fst (it.rests j)) {item : HeapItem}
    (htop : Q.top it.heap = some item) (he : e ∈ it.rests j) : compare item.key e.1 ≠ .gt := by
  cases hj : it.rests j with
  | nil =>
    rw [hj] at he
    cases he
  | cons y ys =>
    have hle := h.loaded.le_of_top htop hj
    have hsorted := hs j
    rw [hj] at he hsorted
    exact Ordering.isLE_iff_ne_gt.mp (Std.TransCmp.isLE_trans (Ordering.isLE_iff_ne_gt.mpr hle)
      (Ordering.isLE_iff_ne_gt.mpr (compare_ne_gt_of_mem hsorted he)))

lemma Reached.sorted (h : Reached start it) (hs : ∀ j, KeysAscend fst (start j)) (j : ℕ) :
    KeysAscend fst (it.rests j) := by
  obtain ⟨taken,htaken,-⟩ := h.taken j
  have hsorted := hs j
  rw [htaken] at hsorted
  exact (pairwise_append.mp hsorted).2.1

lemma Ready.lt_of_mem_next (h : it.Ready) (hs : ∀ j, KeysAscend fst (it.rests j)) {i : ℕ} {x : KeyValue}
    {xs : List KeyValue} (hstep : Stepped it i x xs) (he : e ∈ it.next.rests j) :
    compare x.1 e.1 = .lt := by
  have hs' : ∀ j, KeysAscend fst (it.next.rests j) := by
    intro j
    obtain ⟨dropped,hdropped,-⟩ := hstep.dropped j
    have hsorted := hs j
    rw [hdropped] at hsorted
    exact (pairwise_append.mp hsorted).2.1
  cases htop : Q.top it.next.heap with
  | none =>
    rw [hstep.ready.loaded.rests_of_top_none htop] at he
    cases he
  | some item =>
    obtain ⟨y,ys,hy,hkey⟩ := hstep.ready.loaded.isHead_of_top htop
    have hne : item.key ≠ x.1 := by
      rw [hstep.loop] at htop
      exact h.loaded.skip x.1 le_rfl item htop
    obtain ⟨dropped,hdropped,-⟩ := hstep.dropped item.childIndex
    have hxy := h.least_head hs hstep.top (e := y) (j := item.childIndex) (by rw [hdropped,hy]; simp)
    have hlt : compare x.1 item.key = .lt := by
      rw [hkey] at hne ⊢
      exact compare_lt_of_ne_gt hxy hne.symm
    exact Std.TransCmp.lt_of_lt_of_isLE hlt (Ordering.isLE_iff_ne_gt.mpr (hstep.ready.least_head hs' htop he))

lemma Reached.next (h : Reached start it) (hs : ∀ j, KeysAscend fst (start j)) : Reached start it.next := by
  cases htop : Q.top it.heap with
  | none =>
    rw [MergingIterator.next,if_neg (by rw [h.ready.valid_of_top_none htop]; exact Bool.false_ne_true)]
    exact h
  | some item =>
    obtain ⟨x,xs,hstep⟩ := h.ready.stepped htop
    refine ⟨hstep.ready,?_⟩
    intro j
    obtain ⟨taken,htaken,hbelow⟩ := h.taken j
    obtain ⟨dropped,hdropped,hkey⟩ := hstep.dropped j
    refine ⟨taken++dropped,by rw [htaken,hdropped,append_assoc],?_⟩
    intro d hd l e he
    rcases mem_append.mp hd with hd | hd
    · obtain ⟨dropped',hdropped',-⟩ := hstep.dropped l
      exact hbelow d hd l e (by rw [hdropped']; exact mem_append_right _ he)
    · rw [hkey d hd]
      exact h.ready.lt_of_mem_next (h.sorted hs) hstep he

lemma Reached.iterate (h : Reached start it) (hs : ∀ j, KeysAscend fst (start j)) (n : ℕ) :
    Reached start (MergingIterator.next^[n] it) := by
  induction n generalizing it with
  | zero => exact h
  | succ n ih =>
    exact ih (h.next hs)

lemma Reached.shown (h : Reached start it) (hvalid : it.valid = true) :
    ∃ i, Q.top it.heap = some ⟨i,it.key⟩ ∧ (start i).find? (fun e => e.1 = it.key) = some (it.key,it.value) := by
  obtain ⟨i,x,xs,hstep⟩ := h.ready.exists_stepped hvalid
  have hcurrent : it.current = some i := by rw [h.ready.current,hstep.top]; rfl
  obtain ⟨-,hkey,hvalue⟩ := h.ready.loaded.at_current hcurrent hstep.head
  refine ⟨i,by rw [hstep.top,hkey],?_⟩
  obtain ⟨taken,htaken,hbelow⟩ := h.taken i
  rw [htaken,hstep.head,find?_append,find?_eq_none.mpr,none_or,hkey,hvalue,
    find?_cons_of_pos (by simp)]
  intro d hd
  have hlt := hbelow d hd i x (by rw [hstep.head]; exact mem_cons_self)
  rw [decide_eq_true_eq,hkey]
  exact ne_of_compare_lt hlt

lemma Reached.head_eq (h : Reached start it) (hs : ∀ j, KeysAscend fst (start j)) (hvalid : it.valid = true)
    (he : (start j).find? (fun e => e.1 = it.key) = some e) : ∃ es, it.rests j = e::es := by
  obtain ⟨i,htop,-⟩ := h.shown hvalid
  obtain ⟨x,xs,hstep⟩ := h.ready.stepped htop
  have hkey : e.1 = it.key := by simpa using find?_some he
  obtain ⟨taken,htaken,hbelow⟩ := h.taken j
  rw [htaken,find?_append,find?_eq_none.mpr,none_or] at he
  · cases hj : it.rests j with
    | nil =>
      rw [hj] at he
      cases he
    | cons y ys =>
      have hsorted := h.sorted hs j
      have hleast := h.ready.least_head (h.sorted hs) htop (j := j) (e := y) (by rw [hj]; exact mem_cons_self)
      rw [hj] at he hsorted
      have hye := compare_ne_gt_of_mem hsorted (mem_of_find?_eq_some he)
      rw [hkey] at hye
      rw [find?_cons_of_pos (by simpa using eq_of_compare_ne_gt hye hleast)] at he
      exact ⟨ys,by rw [some.inj he]⟩
  · intro d hd
    have hlt := hbelow d hd i x (by rw [hstep.head]; exact mem_cons_self)
    rw [decide_eq_true_eq,hstep.key]
    exact ne_of_compare_lt hlt

lemma Ready.exists_iterate (h : it.Ready) (he : e ∈ it.rests j) :
    ∃ n, (MergingIterator.next^[n] it).valid = true ∧ (MergingIterator.next^[n] it).key = e.1 := by
  induction hn : it.remaining using Nat.strong_induction_on generalizing it with
  | _ n ih =>
    cases htop : Q.top it.heap with
    | none =>
      rw [h.loaded.rests_of_top_none htop] at he
      cases he
    | some item =>
      obtain ⟨x,xs,hstep⟩ := h.stepped htop
      by_cases hx : x.1 = e.1
      · exact ⟨0,hstep.valid,hstep.key.trans hx⟩
      · obtain ⟨dropped,hdropped,hkey⟩ := hstep.dropped j
        rw [hdropped] at he
        have he' := (mem_append.mp he).resolve_left fun hd => hx (hkey e hd).symm
        obtain ⟨m,hm⟩ := ih _ (hn ▸ hstep.fewer) hstep.ready he' rfl
        exact ⟨m+1,hm⟩

end Reached
section Target
variable {children : List SnapshotIterator} {target : Option Bytes} {c : SnapshotIterator} {k v : Bytes}

lemma entriesFrom_eq_dropWhile (target : Option Bytes) (c : SnapshotIterator) : ∃ p : Bytes → Bool,
    entriesFrom target c = c.entries.dropWhile fun e => p e.1 := by
  cases target with
  | none => exact ⟨fun _ => false,by cases h : c.entries <;> simp [entriesFrom,h]⟩
  | some t => exact ⟨fun k => internalKeyCompare k t = .lt,rfl⟩

lemma keysAscend_entriesFrom (hs : KeysAscend fst c.entries) : KeysAscend fst (entriesFrom target c) := by
  obtain ⟨p,hp⟩ := entriesFrom_eq_dropWhile target c
  rw [hp]
  exact hs.sublist (dropWhile_sublist _)

lemma valueAt_of_entriesFrom (hs : KeysAscend fst c.entries) (h : valueAt (entriesFrom target c) k = some v) :
    valueAt c.entries k = some v := by
  obtain ⟨p,hp⟩ := entriesFrom_eq_dropWhile target c
  rw [hp] at h
  obtain ⟨e,he,-⟩ := map_eq_some_iff.mp h
  have hek : e.1 = k := by simpa using find?_some he
  rw [← takeWhile_append_dropWhile (p := fun e : KeyValue => p e.1) (l := c.entries)] at hs ⊢
  rw [valueAt,find?_append,find?_eq_none.mpr,none_or]
  · exact h
  intro d hd hkey
  have hdk : d.1 = k := by simpa using hkey
  have hpass : p d.1 = true := mem_takeWhile_imp (p := fun e : KeyValue => p e.1) hd
  obtain ⟨-,hbehind,hcross⟩ := pairwise_append.mp hs
  -- the entry at which the seek stops would have the key too
  cases hrest : c.entries.dropWhile fun e => p e.1 with
  | nil =>
    rw [hrest] at he
    cases he
  | cons y ys =>
    have hstop : p y.1 = false := by
      have hhead := head?_dropWhile_not (fun e : KeyValue => p e.1) c.entries
      rw [hrest] at hhead
      simpa using hhead
    rw [hrest] at he hbehind hcross
    have hye := compare_ne_gt_of_mem hbehind (mem_of_find?_eq_some he)
    have hdy := hcross d hd y mem_cons_self
    rw [hek] at hye
    rw [hdk] at hdy hpass
    rw [eq_of_compare_ne_gt hye hdy,hpass] at hstop
    cases hstop

variable (hok : ∀ c ∈ children, c.status.ok = true) (hs : ∀ c ∈ children, KeysAscend fst c.entries)

include hs in
lemma keysAscend_restsFrom (target : Option Bytes) (j : ℕ) : KeysAscend fst (restsFrom target children j) := by
  rw [restsFrom_eq]
  cases hc : children[j]? with
  | none => exact Pairwise.nil
  | some c => exact keysAscend_entriesFrom (hs c (mem_of_getElem? hc))

include hok hs in
lemma reached_sought (Q : Heap) (target : Option Bytes) (n : ℕ) :
    Reached (restsFrom target children) (next^[n] ((ofChildren Q children).sought target)) := by
  obtain ⟨hready,hrests⟩ := ready_sought hok target Q
  refine Reached.iterate ⟨hready,?_⟩ (keysAscend_restsFrom hs target) n
  intro j
  exact ⟨[],by rw [hrests]; rfl,nofun⟩

lemma ok_of_valid {Q : Heap} {n : ℕ} (hvalid : (next^[n] ((ofChildren Q children).sought target)).valid = true) :
    ∀ c ∈ children, c.status.ok = true := by
  refine status_ok_of_childStatus ?_
  by_contra hfail
  have hstatus : ((ofChildren Q children).sought target).status = childStatus children := by
    cases target with
    | none => exact status_seekToFirst
    | some t =>
      exact (@items_foldl_pushChild Q { ofChildren Q children with children := _, heap := Q.empty }
        Q.items_empty _).2.1
  have hinvalid : ((ofChildren Q children).sought target).valid = false := by
    rw [valid,hstatus]
    simp [hfail]
  have hfixed : ((ofChildren Q children).sought target).next = (ofChildren Q children).sought target := by
    rw [next,if_neg (by rw [hinvalid]; exact Bool.false_ne_true)]
  rw [Function.iterate_fixed hfixed,hinvalid] at hvalid
  cases hvalid

end Target

/-- Children that hold the same key hold the same value for it. -/
def Agree (children : List SnapshotIterator) : Prop :=
  ∀ c ∈ children, ∀ c' ∈ children, ∀ k, ∀ v ∈ valueAt c.entries k, ∀ v' ∈ valueAt c'.entries k, v = v'

/-- The earliest child wins for all heaps if and only if the children agree, or one of them could not be read. -/
theorem earliestWins_iff {children : List SnapshotIterator} (hs : ∀ c ∈ children, KeysAscend fst c.entries) :
    EarliestWins children ↔ ((∀ c ∈ children, c.status.ok = true) → Agree children) := by
  constructor
  · intro hwins hok
    have hearliest : ∀ c ∈ children, ∀ k, ∀ v ∈ valueAt c.entries k, earliest none children k = some v := by
      intro c hc k v hv
      obtain ⟨j,hj⟩ := mem_iff_getElem?.mp hc
      obtain ⟨e,he,rfl⟩ := map_eq_some_iff.mp hv
      have hek : e.1 = k := by simpa using find?_some he
      have hstart : restsFrom none children j = c.entries := by rw [restsFrom_eq,hj]; rfl
      -- a heap that prefers the child shows its value
      obtain ⟨hready,hrests⟩ := ready_sought hok none (preferring j)
      obtain ⟨n,hvalid,hkey⟩ := hready.exists_iterate (j := j) (e := e)
        (by rw [hrests,hstart]; exact mem_of_find?_eq_some he)
      have hreached := reached_sought hok hs (preferring j) none n
      rw [← hek,← hkey,← hstart] at he
      obtain ⟨es,hes⟩ := hreached.head_eq (keysAscend_restsFrom hs none) hvalid he
      obtain ⟨i,htop,hshown⟩ := hreached.shown hvalid
      have hij : i = j := by
        rcases preferring_top htop ((hreached.ready.loaded.items ⟨j,e.1⟩).mpr ⟨e,es,hes,rfl⟩) with hlt | ⟨-,hi | hne⟩
        · exact absurd hkey (ne_of_compare_lt hlt)
        · exact hi
        · exact (hne rfl).elim
      rw [hij,he] at hshown
      have hshows := hwins (preferring j) none n hvalid
      rw [hkey,hek] at hshows
      rw [hshows,some.inj hshown]
    intro c hc c' hc' k v hv v' hv'
    exact some.inj ((hearliest c hc k v hv).symm.trans (hearliest c' hc' k v' hv'))
  · intro hagree Q target n hvalid
    have hok := ok_of_valid hvalid
    obtain ⟨i,-,hshown⟩ := (reached_sought hok hs Q target n).shown hvalid
    obtain ⟨c,hc,hfound⟩ : ∃ c ∈ children, valueAt (entriesFrom target c)
        (next^[n] ((ofChildren Q children).sought target)).key =
          some (next^[n] ((ofChildren Q children).sought target)).value := by
      rw [restsFrom_eq] at hshown
      cases hi : children[i]? with
      | none =>
        rw [hi] at hshown
        cases hshown
      | some c =>
        rw [hi,map_some,getD_some] at hshown
        exact ⟨c,mem_of_getElem? hi,by rw [valueAt,hshown]; rfl⟩
    cases hfirst : earliest target children (next^[n] ((ofChildren Q children).sought target)).key with
    | none =>
      rw [findSome?_eq_none_iff.mp hfirst c hc] at hfound
      cases hfound
    | some v =>
      obtain ⟨c',hc',hv⟩ := exists_of_findSome?_eq_some hfirst
      rw [hagree hok c' hc' c hc _ v (valueAt_of_entriesFrom (hs c' hc') hv) _
        (valueAt_of_entriesFrom (hs c hc) hfound)]

def sharing (v w : Bytes) : List SnapshotIterator :=
  [.ofMemTable [((⟨[97],1,.value⟩ : InternalKey).encode,[120]),((⟨[98],1,.value⟩ : InternalKey).encode,v)],
    .ofMemTable [((⟨[98],1,.value⟩ : InternalKey).encode,w)]]

/-- With one value for the shared key the earliest child wins. -/
theorem earliestWins_of_sharing : EarliestWins (sharing [121] [121]) := by
  refine (earliestWins_iff (by decide +kernel)).mpr fun _ => ?_
  have hsame : ∀ c ∈ sharing [121] [121], ∀ c' ∈ sharing [121] [121], ∀ e ∈ c.entries, ∀ e' ∈ c'.entries,
    e.1 = e'.1 →
      e.2 = e'.2 := by decide +kernel
  intro c hc c' hc' k v hv v' hv'
  obtain ⟨e,he,rfl⟩ := map_eq_some_iff.mp hv
  obtain ⟨e',he',rfl⟩ := map_eq_some_iff.mp hv'
  have hkey : e.1 = k := by simpa using find?_some he
  have hkey' : e'.1 = k := by simpa using find?_some he'
  exact hsame c hc c' hc' e (mem_of_find?_eq_some he) e' (mem_of_find?_eq_some he') (hkey.trans hkey'.symm)

/-- `std::priority_queue` leaves open which of two equal keys comes up first; its vector has the one that has been
waiting for longer at the front, here the second child's, as this heap has. -/
theorem second_child_wins :
    ((ofChildren (preferring 1) (sharing [121] [122])).sought none).next.key =
      (⟨[98],1,.value⟩ : InternalKey).encode ∧
    ((ofChildren (preferring 1) (sharing [121] [122])).sought none).next.value = [122] ∧
    earliest none (sharing [121] [122]) (⟨[98],1,.value⟩ : InternalKey).encode = some [121] := by
  decide +kernel

end MergingIterator
end TitanKV.Minikv
