import TitanKV.Services.Rag.HnswIndex

/-! What the methods of the index ask of `mu`. `add` holds it exclusively when it calls the helpers that
ask for it again, which it does as soon as the index has an entry. -/
namespace TitanKV.Services.Rag.HNSWIndex
open Minikv (Bytes)
open Goroutine List

variable {F S : Type*} [LinearOrder S] {score : List F → List F → S} {t : Goroutine F}

/-- The goroutine never asks for `mu` while it holds it exclusively. -/
def NeverRequestsHeld (events : List LockEvent) : Prop :=
  ∀ before e after, events = before ++ e::after → e = .Lock ∨ e = .RLock → heldExclusively before = false

/-- The calls of `add` that a method makes. -/
def Operation.adds : Operation F → List (Bytes × List F × Fin 9)
  | .add id vec l => [(id,vec,l)]
  | .mergeSnapshot vectors => vectors
  | _ => []

/-- A vector of the right length is added behind an entry, be it there before or added by the same method. -/
def AddsBehindEntry (dim : ℕ) (entry : Bytes) (adds : List (Bytes × List F × Fin 9)) : Prop :=
  ∃ before v after, adds = before ++ v::after ∧ v.2.1.length = dim ∧
    (entry ≠ [] ∨ ∃ u ∈ before, u.2.1.length = dim ∧ u.1 ≠ [])

section Events

lemma NeverRequestsHeld.append {events more : List LockEvent} (hevents : NeverRequestsHeld events)
    (hbalanced : events.count .Lock = events.count .Unlock) (hmore : NeverRequestsHeld more) :
    NeverRequestsHeld (events++more) := by
  intro before e after hsplit he
  rcases append_eq_append_iff.mp hsplit with ⟨mid,rfl,hmid⟩ | ⟨mid,rfl,hmid⟩
  · have hheld := hmore mid e after hmid he
    simp only [heldExclusively,count_append,decide_eq_false_iff_not] at hheld ⊢
    omega
  · cases mid with
    | nil =>
      rw [append_nil] at hbalanced
      simp only [heldExclusively,hbalanced,lt_self_iff_false,decide_false]
    | cons x mid =>
      obtain ⟨rfl,rfl⟩ := cons.inj hmid
      exact hevents before e mid rfl he

lemma neverRequestsHeld_pair {a b : LockEvent} (hb : b = .RUnlock ∨ b = .Unlock) : NeverRequestsHeld [a,b] := by
  intro before e after hsplit he
  match before with
  | [] => rfl
  | [x] =>
    obtain ⟨rfl,rfl,rfl⟩ : a = x ∧ b = e ∧ [] = after := by simpa using hsplit
    rcases hb with rfl | rfl <;> rcases he with he | he <;> cases he
  | x::y::before => simp at hsplit

lemma neverRequestsHeld_nil : NeverRequestsHeld [] := by
  intro before e after hsplit
  simp at hsplit

end Events

section Requests
variable {α : Type*} {acquire free : LockEvent} {body : Goroutine F → Except Fault α × Goroutine F}

lemma under_of_held (hheld : heldExclusively t.events = true) :
    under .rwMutex acquire free body t = (.error .blocked,t.release acquire) := by
  rw [under,request,if_pos ⟨rfl,hheld⟩,release]

lemma under_of_not_held (mutex : Mutex) (hheld : heldExclusively t.events = false) :
    under mutex acquire free body t = deferred free (body (t.release acquire)) := by
  rw [under,request,if_neg fun h => Bool.false_ne_true (hheld.symm.trans h.2)]
  rfl

lemma deferred_ok (a : α) : deferred free (.ok a,t) = (.ok a,t.release free) := rfl

lemma deferred_lift (r : Except Panic α) : deferred free (lift r,t) = (lift r,t.release free) := by
  cases r <;> rfl

lemma descend_of_held (hheld : heldExclusively t.events = true) (q : List F) (l n : ℕ) (curr : Bytes) :
    descend score .rwMutex q l (n+1) curr t = (.error .blocked,t.release .RLock) := by
  rw [descend,greedyClosest,under_of_held hheld]

lemma connect_of_held (hheld : heldExclusively t.events = true) (q : List F) (id : Bytes) (lc : ℕ) (curr : Bytes) :
    connect score .rwMutex q id (lc+1) curr t = (.error .blocked,t.release .RLock) := by
  rw [connect,searchLayer,under_of_held hheld]

lemma addLocked_of_held (score : List F → List F → S) (hheld : heldExclusively t.events = true) (id : Bytes)
    (vec : List F) (l : ℕ) (hentry : t.index.entry ≠ []) :
    addLocked score .rwMutex id vec l t = (.error .blocked,⟨t.index.insertNode id vec l,t.events++[.RLock]⟩) := by
  have hheld' : heldExclusively (Goroutine.mk (t.index.insertNode id vec l) t.events).events = true := hheld
  have hentry' : (t.index.insertNode id vec l).entry ≠ [] := hentry
  rw [addLocked,if_neg hentry']
  cases (t.index.insertNode id vec l).maxLayer - l with
  | zero =>
    simp only [descend]
    rw [connect_of_held hheld']
    rfl
  | succ n =>
    rw [descend_of_held hheld']
    rfl

end Requests

section Adds

lemma heldExclusively_of_balanced (hbalanced : t.events.count .Lock = t.events.count .Unlock) :
    heldExclusively t.events = false := by
  simp only [heldExclusively,hbalanced,lt_self_iff_false,decide_false]

lemma add_of_entry_nil (mutex : Mutex) (hbalanced : t.events.count .Lock = t.events.count .Unlock) {id : Bytes}
    {vec : List F} (l : Fin 9) (hdim : vec.length = t.index.dim) (hentry : t.index.entry = []) :
    add score mutex id vec l t = (.ok (),⟨{ t.index.insertNode id vec l with entry := id, maxLayer := l },
      t.events++[.Lock,.Unlock]⟩) := by
  rw [add,if_neg (not_not.mpr hdim),under_of_not_held mutex (heldExclusively_of_balanced hbalanced),addLocked,
    if_pos (show ((t.release .Lock).index.insertNode id vec l).entry = [] from hentry),deferred_ok]
  simp only [release,append_assoc,singleton_append]

lemma add_of_entry (hbalanced : t.events.count .Lock = t.events.count .Unlock) {id : Bytes} {vec : List F}
    (l : Fin 9) (hdim : vec.length = t.index.dim) (hentry : t.index.entry ≠ []) :
    add score .rwMutex id vec l t = (.error .blocked,⟨t.index.insertNode id vec l,t.events++[.Lock,.RLock]⟩) := by
  have hheld : heldExclusively (t.release .Lock).events = true := by
    simp [heldExclusively,release,count_append,hbalanced]
  rw [add,if_neg (not_not.mpr hdim),under_of_not_held _ (heldExclusively_of_balanced hbalanced),
    addLocked_of_held score hheld id vec l hentry]
  simp only [deferred,release,append_assoc,singleton_append]

variable {v : Bytes × List F × Fin 9} {dim : ℕ}

lemma addsBehindEntry_of_entry {entry : Bytes} (vectors : List (Bytes × List F × Fin 9))
    (hdim : v.2.1.length = dim) (hentry : entry ≠ []) : AddsBehindEntry dim entry (v::vectors) :=
  ⟨[],v,vectors,rfl,hdim,.inl hentry⟩

lemma addsBehindEntry_of_entry_nil {vectors : List (Bytes × List F × Fin 9)}
    (hdim : v.2.1.length = dim) : AddsBehindEntry dim [] (v::vectors) ↔ AddsBehindEntry dim v.1 vectors := by
  constructor
  · rintro ⟨_ | ⟨u,before⟩,w,after,hsplit,hw,hbehind⟩
    · simp at hbehind
    · obtain ⟨rfl,rfl⟩ := cons.inj hsplit
      refine ⟨before,w,after,rfl,hw,?_⟩
      obtain hbehind | ⟨u,hu,hfits,hne⟩ := hbehind
      · exact absurd rfl hbehind
      · rcases mem_cons.mp hu with rfl | hu
        · exact .inl hne
        · exact .inr ⟨u,hu,hfits,hne⟩
  · rintro ⟨before,w,after,rfl,hw,hbehind⟩
    refine ⟨v::before,w,after,rfl,hw,.inr ?_⟩
    obtain hne | ⟨u,hu,hfits,hne⟩ := hbehind
    · exact ⟨v,mem_cons_self,hdim,hne⟩
    · exact ⟨u,mem_cons_of_mem v hu,hfits,hne⟩

lemma addsBehindEntry_of_length_ne {entry : Bytes} {vectors : List (Bytes × List F × Fin 9)}
    (hdim : v.2.1.length ≠ dim) : AddsBehindEntry dim entry (v::vectors) ↔ AddsBehindEntry dim entry vectors := by
  constructor
  · rintro ⟨_ | ⟨u,before⟩,w,after,hsplit,hw,hbehind⟩
    · obtain ⟨rfl,rfl⟩ := cons.inj hsplit
      exact absurd hw hdim
    · obtain ⟨rfl,rfl⟩ := cons.inj hsplit
      refine ⟨before,w,after,rfl,hw,hbehind.imp_right ?_⟩
      rintro ⟨u,hu,hfits,hne⟩
      rcases mem_cons.mp hu with rfl | hu
      · exact absurd hfits hdim
      · exact ⟨u,hu,hfits,hne⟩
  · rintro ⟨before,w,after,rfl,hw,hbehind⟩
    exact ⟨v::before,w,after,rfl,hw,hbehind.imp_right fun ⟨u,hu,hfits,hne⟩ => ⟨u,mem_cons_of_mem v hu,hfits,hne⟩⟩

/-- Every call of `add` but one behind an entry leaves `mu` as it was. -/
theorem mergeSnapshot_neverRequestsHeld_iff (vectors : List (Bytes × List F × Fin 9))
    (hbalanced : t.events.count .Lock = t.events.count .Unlock) (hnever : NeverRequestsHeld t.events) :
    NeverRequestsHeld (mergeSnapshot score .rwMutex vectors t).2.events ↔
      ¬ AddsBehindEntry t.index.dim t.index.entry vectors := by
  induction vectors generalizing t with
  | nil => simpa [mergeSnapshot,AddsBehindEntry] using hnever
  | cons v vectors ih =>
    obtain ⟨id,vec,l⟩ := v
    by_cases hdim : vec.length = t.index.dim
    · by_cases hentry : t.index.entry = []
      · rw [mergeSnapshot,add_of_entry_nil .rwMutex hbalanced l hdim hentry,hentry,addsBehindEntry_of_entry_nil hdim]
        refine ih ?_ (hnever.append hbalanced (neverRequestsHeld_pair (.inr rfl)))
        simp only [count_append,hbalanced]
        rfl
      · rw [mergeSnapshot,add_of_entry hbalanced l hdim hentry,iff_not_comm]
        refine iff_of_true (addsBehindEntry_of_entry vectors hdim hentry) fun hnever => ?_
        have hheld := hnever (t.events++[.Lock]) .RLock [] (by simp) (.inr rfl)
        simp [heldExclusively,count_append,hbalanced] at hheld
    · have hskip : add score .rwMutex id vec l t = (.ok (),t) := by rw [add,if_pos hdim]
      rw [mergeSnapshot,hskip,addsBehindEntry_of_length_ne hdim]
      exact ih hbalanced hnever

end Adds

lemma discard_events {α : Type*} (r : Except Fault α × Goroutine F) : (discard r).2 = r.2 := by
  obtain ⟨_ | _,_⟩ := r <;> rfl

/-- A method keeps to the rules of `mu` exactly when it adds no vector of the right length behind an entry. -/
theorem perform_neverRequestsHeld_iff (score : List F → List F → S) (h : HNSWIndex F) (op : Operation F) :
    NeverRequestsHeld (perform score .rwMutex ⟨h,[]⟩ op).2.events ↔ ¬ AddsBehindEntry h.dim h.entry op.adds := by
  have hnone : ¬ AddsBehindEntry h.dim h.entry ([] : List (Bytes × List F × Fin 9)) := by
    rintro ⟨before,v,after,hsplit,_⟩
    simp at hsplit
  have hread {α : Type _} {body : Goroutine F → Except Panic α} :
      (under .rwMutex .RLock .RUnlock (fun t => (lift (body t),t)) ⟨h,[]⟩).2.events = [.RLock,.RUnlock] := by
    rw [under_of_not_held _ rfl,deferred_lift]
    rfl
  cases op with
  | dim => exact iff_of_true neverRequestsHeld_nil hnone
  | size | saveSnapshot | saveSnapshotPrefix pre => exact iff_of_true (neverRequestsHeld_pair (.inl rfl)) hnone
  | add id vec l =>
    have hadd : (perform score .rwMutex ⟨h,[]⟩ (.add id vec l)).2.events =
        (mergeSnapshot score .rwMutex [(id,vec,l)] ⟨h,[]⟩).2.events := by
      simp only [perform,mergeSnapshot]
      rcases add score .rwMutex id vec l ⟨h,[]⟩ with ⟨_ | _,t⟩ <;> rfl
    rw [hadd]
    exact mergeSnapshot_neverRequestsHeld_iff _ rfl neverRequestsHeld_nil
  | delete id pick | clearByPrefix pre => exact iff_of_true (neverRequestsHeld_pair (.inr rfl)) hnone
  | topK query k =>
    rw [perform,discard_events,topK,hread]
    exact iff_of_true (neverRequestsHeld_pair (.inl rfl)) hnone
  | mergeSnapshot vectors => exact mergeSnapshot_neverRequestsHeld_iff vectors rfl neverRequestsHeld_nil

/-- The second vector: `add` asks for `mu` again and stays there. -/
theorem add_after_add_blocks :
    ∃ h, step (fun _ _ : List ℕ => (0 : ℕ)) .rwMutex (new 1) (.add [97] [0] 0) = some h ∧
      perform (fun _ _ : List ℕ => (0 : ℕ)) .rwMutex ⟨h,[]⟩ (.add [98] [0] 0) =
        (.error .blocked,⟨h.insertNode [98] [0] 0,[.Lock,.RLock]⟩) ∧
      ¬ NeverRequestsHeld (perform (fun _ _ : List ℕ => (0 : ℕ)) .rwMutex ⟨h,[]⟩ (.add [98] [0] 0)).2.events := by
  refine ⟨_,rfl,rfl,fun hnever => ?_⟩
  have hheld := hnever [.Lock] .RLock [] rfl (.inr rfl)
  cases hheld

end TitanKV.Services.Rag.HNSWIndex
