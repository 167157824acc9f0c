import TitanKV.Services.Rag.HnswLocks
import TitanKV.Services.Rag.HnswSearch

/-! How `add` changes the graph: a new node replaces an old one of its name, and links are appended
to the lists of nodes that stay. -/
namespace TitanKV.Services.Rag.HNSWIndex
open Minikv (Bytes)
open Goroutine List
open Exploration (Reaches)

variable {F S : Type*} [LinearOrder S] {score : List F → List F → S} {h h' : HNSWIndex F}

section NewNode
variable (h : HNSWIndex F) (id : Bytes) (vec : List F) (l : ℕ)

@[simp] lemma entry_insertNode : (h.insertNode id vec l).entry = h.entry := rfl
@[simp] lemma maxLayer_insertNode : (h.insertNode id vec l).maxLayer = h.maxLayer := rfl

lemma get_insertNode (x : Bytes) :
    (h.insertNode id vec l).nodes.get x = if x = id then some ⟨vec,replicate (l+1) []⟩ else h.nodes.get x :=
  h.nodes.get_set id _ x

lemma linksAt_insertNode (lc : ℕ) (x : Bytes) :
    (h.insertNode id vec l).linksAt lc x = if x = id then [] else h.linksAt lc x := by
  rw [linksAt,get_insertNode]
  by_cases hx : x = id
  · rw [if_pos hx,if_pos hx,Option.bind_some,getElem?_replicate]
    split <;> rfl
  · rw [if_neg hx,if_neg hx,linksAt]

lemma stands_insertNode_self (lc : ℕ) : (h.insertNode id vec l).Stands lc id ↔ lc≤l := by
  simp [Stands,get_insertNode]

lemma stands_insertNode_of_ne (lc : ℕ) {x : Bytes} (hx : x ≠ id) :
    (h.insertNode id vec l).Stands lc x ↔ h.Stands lc x := by
  rw [Stands,get_insertNode,if_neg hx,Stands]

lemma linksStand_insertNode (hlinks : h.LinksStand) :
    (h.insertNode id vec l).LinksStand ↔ ∀ lc other, other ≠ id → l<lc → id ∉ h.linksAt lc other := by
  constructor
  · intro hnew lc other hother hlc hmem
    have hs := hnew lc other id (by rwa [linksAt_insertNode,if_neg hother])
    rw [stands_insertNode_self] at hs
    omega
  · intro hfree lc x nb hnb
    rw [linksAt_insertNode] at hnb
    split at hnb
    · cases hnb
    · rename_i hx
      by_cases hnew : nb = id
      · subst hnew
        rw [stands_insertNode_self]
        exact not_lt.mp fun hlt => hfree lc x hx hlt hnb
      · rw [stands_insertNode_of_ne h id vec l lc hnew]
        exact hlinks lc x nb hnb

end NewNode

section Append
variable (h : HNSWIndex F) (id : Bytes) (lc : ℕ) (nb : Bytes)

lemma get_appendLink (x : Bytes) :
    (h.appendLink id lc nb).nodes.get x =
      if x = id then (h.nodes.get x).map (fun node => { node with layers := node.layers.modify lc (· ++ [nb]) })
      else h.nodes.get x := by
  rw [appendLink,Directory.get_update]

lemma stands_appendLink (lc' : ℕ) (x : Bytes) : (h.appendLink id lc nb).Stands lc' x ↔ h.Stands lc' x := by
  rw [Stands,get_appendLink,Stands]
  split
  · cases h.nodes.get x <;> simp
  · rfl

lemma linksAt_appendLink_of_ne {lc' : ℕ} {x : Bytes} (hne : x ≠ id ∨ lc' ≠ lc) :
    (h.appendLink id lc nb).linksAt lc' x = h.linksAt lc' x := by
  rw [linksAt,get_appendLink,linksAt]
  by_cases hx : x = id
  · have hlc : lc ≠ lc' := (hne.resolve_left (not_not.mpr hx)).symm
    rw [if_pos hx]
    cases h.nodes.get x with
    | none => rfl
    | some node => simp [hlc]
  · rw [if_neg hx]

variable {h id lc}

lemma linksAt_appendLink_self (hs : h.Stands lc id) :
    (h.appendLink id lc nb).linksAt lc id = h.linksAt lc id ++ [nb] := by
  obtain ⟨node,hget,hlt⟩ := hs
  rw [linksAt,get_appendLink,if_pos rfl,linksAt_of_get hget,hget]
  simp [getElem?_eq_getElem hlt]

lemma linksAt_appendLink_of_not_stands (hs : ¬ h.Stands lc id) :
    (h.appendLink id lc nb).linksAt lc id = h.linksAt lc id := by
  rw [linksAt,get_appendLink,if_pos rfl,linksAt]
  cases hget : h.nodes.get id with
  | none => rfl
  | some node =>
    have hle : node.layers.length≤lc := not_lt.mp fun hlt => hs ⟨node,hget,hlt⟩
    simp [getElem?_eq_none hle]

variable {nb}

lemma linksStand_appendLink (hlinks : h.LinksStand) (hnb : h.Stands lc nb) : (h.appendLink id lc nb).LinksStand := by
  intro lc' x y hy
  rw [stands_appendLink]
  by_cases hsame : x = id ∧ lc' = lc
  · obtain ⟨rfl,rfl⟩ := hsame
    by_cases hs : h.Stands lc' x
    · rw [linksAt_appendLink_self nb hs,mem_append,mem_singleton] at hy
      rcases hy with hy | rfl
      · exact hlinks lc' x y hy
      · exact hnb
    · rw [linksAt_appendLink_of_not_stands nb hs] at hy
      exact hlinks lc' x y hy
  · rw [linksAt_appendLink_of_ne h id lc nb (not_and_or.mp hsame)] at hy
    exact hlinks lc' x y hy

end Append

/-- The graph has the same nodes with the same layers, and no link is lost. -/
structure Grows (h h' : HNSWIndex F) : Prop where
  dim_eq : h'.dim = h.dim
  m_eq : h'.m = h.m
  entry_eq : h'.entry = h.entry
  maxLayer_eq : h'.maxLayer = h.maxLayer
  names_eq : h'.nodes.names = h.nodes.names
  stands_iff : ∀ lc id, h'.Stands lc id ↔ h.Stands lc id
  links_mem : ∀ lc id, ∀ nb ∈ h.linksAt lc id, nb ∈ h'.linksAt lc id

namespace Grows

lemma refl (h : HNSWIndex F) : Grows h h := ⟨rfl,rfl,rfl,rfl,rfl,fun _ _ => Iff.rfl,fun _ _ _ hnb => hnb⟩

lemma trans {h₁ h₂ h₃ : HNSWIndex F} (h₁₂ : Grows h₁ h₂) (h₂₃ : Grows h₂ h₃) : Grows h₁ h₃ :=
  ⟨h₂₃.dim_eq.trans h₁₂.dim_eq,h₂₃.m_eq.trans h₁₂.m_eq,h₂₃.entry_eq.trans h₁₂.entry_eq,
    h₂₃.maxLayer_eq.trans h₁₂.maxLayer_eq,h₂₃.names_eq.trans h₁₂.names_eq,
    fun lc id => (h₂₃.stands_iff lc id).trans (h₁₂.stands_iff lc id),
    fun lc id nb hnb => h₂₃.links_mem lc id nb (h₁₂.links_mem lc id nb hnb)⟩

lemma appendLink (h : HNSWIndex F) (id : Bytes) (lc : ℕ) (nb : Bytes) : Grows h (h.appendLink id lc nb) := by
  have hnames : (h.appendLink id lc nb).nodes.names =
    h.nodes.names := by rw [HNSWIndex.appendLink,Directory.names_update]
  refine ⟨rfl,rfl,rfl,rfl,hnames,fun lc' x => stands_appendLink h id lc nb lc' x,fun lc' x y hy => ?_⟩
  by_cases hsame : x = id ∧ lc' = lc
  · obtain ⟨rfl,rfl⟩ := hsame
    by_cases hs : h.Stands lc' x
    · rw [linksAt_appendLink_self nb hs]
      exact mem_append_left _ hy
    · rwa [linksAt_appendLink_of_not_stands nb hs]
  · rwa [linksAt_appendLink_of_ne h id lc nb (not_and_or.mp hsame)]

end Grows

section Connecting

variable {lc : ℕ}

lemma linkNeighbours_of_appendLink {P : HNSWIndex F → Prop} (happend : ∀ h id nb, P h → P (h.appendLink id lc nb))
    (id : Bytes) (nbs : List Bytes) (hP : P h) : P (linkNeighbours id lc nbs h).2 := by
  induction nbs generalizing h with
  | nil => exact hP
  | cons nb nbs ih =>
    have hfirst := happend h id nb hP
    rw [linkNeighbours]
    split
    · exact ih hP
    · simp only
      cases (h.appendLink id lc nb).neighboursAt lc nb with
      | error p => exact hfirst
      | ok links =>
        simp only
        split
        · exact ih (happend _ nb id hfirst)
        · exact ih hfirst

lemma linkNeighbours_grows (id : Bytes) (lc : ℕ) (nbs : List Bytes) (h : HNSWIndex F) :
    Grows h (linkNeighbours id lc nbs h).2 :=
  linkNeighbours_of_appendLink (fun h' id nb hgrows => hgrows.trans (Grows.appendLink h' id lc nb)) id nbs
    (Grows.refl h)

variable {id : Bytes}

lemma linkNeighbours_eq_ok {nbs : List Bytes} (hlinks : h.LinksStand) (hid : h.Stands lc id)
    (hnbs : ∀ nb ∈ nbs, h.Stands lc nb) :
    ∃ h', linkNeighbours id lc nbs h = (.ok (),h') ∧ h'.LinksStand := by
  induction nbs generalizing h with
  | nil => exact ⟨h,rfl,hlinks⟩
  | cons nb nbs ih =>
    have hnb : h.Stands lc nb := hnbs nb mem_cons_self
    have hrest {h' : HNSWIndex F} (hgrows : Grows h h') : ∀ x ∈ nbs, h'.Stands lc x :=
      fun x hx => (hgrows.stands_iff lc x).mpr (hnbs x (mem_cons_of_mem nb hx))
    rw [linkNeighbours]
    split
    · exact ih hlinks hid (hrest (Grows.refl h))
    · have hgrows := Grows.appendLink h id lc nb
      have hlinks' : (h.appendLink id lc nb).LinksStand := linksStand_appendLink hlinks hnb
      have hid' : (h.appendLink id lc nb).Stands lc id := (hgrows.stands_iff lc id).mpr hid
      simp only [neighboursAt_eq_ok ((hgrows.stands_iff lc nb).mpr hnb)]
      split
      · have hgrows' := hgrows.trans (Grows.appendLink _ nb lc id)
        exact ih (linksStand_appendLink hlinks' hid') ((hgrows'.stands_iff lc id).mpr hid) (hrest hgrows')
      · exact ih hlinks' hid' (hrest hgrows)

lemma linkNeighbours_not_blocked (id : Bytes) (lc : ℕ) (nbs : List Bytes) (h : HNSWIndex F) :
    (linkNeighbours id lc nbs h).1 ≠ .error .blocked := by
  induction nbs generalizing h with
  | nil => simp [linkNeighbours]
  | cons nb nbs ih =>
    rw [linkNeighbours]
    split
    · exact ih h
    · simp only
      cases (h.appendLink id lc nb).neighboursAt lc nb with
      | error p => simp
      | ok links => exact ih _

variable {α : Type*}

lemma under_reentrant {acquire free : LockEvent} {body : Goroutine F → Except Fault α × Goroutine F}
    {t : Goroutine F} :
    under .reentrant acquire free body t = deferred free (body (t.release acquire)) := by
  rfl

lemma deferred_index (free : LockEvent) (r : Except Fault α × Goroutine F) :
    (deferred free r).2.index = r.2.index := by
  rcases r with ⟨(_ | _) | _,t⟩ <;> rfl

lemma deferred_result (free : LockEvent) (r : Except Fault α × Goroutine F) : (deferred free r).1 = r.1 := by
  rcases r with ⟨(_ | _) | _,t⟩ <;> rfl

variable {t : Goroutine F}

variable (score) (q : List F)

lemma greedyClosest_reentrant (start : Bytes) (layer : ℕ) :
    ∃ t', greedyClosest score .reentrant q start layer t =
      (lift (t.index.greedyClosestLocked score q start layer),t') ∧
      t'.index = t.index := by
  rw [greedyClosest,under_reentrant,deferred_lift]
  exact ⟨_,rfl,rfl⟩

lemma searchLayer_reentrant (start : Bytes) (ef : ℤ) (layer : ℕ) :
    ∃ t', searchLayer score .reentrant q start ef layer t =
      (lift (t.index.searchLayerLocked score q start ef layer),t') ∧
      t'.index = t.index := by
  rw [searchLayer,under_reentrant,deferred_lift]
  exact ⟨_,rfl,rfl⟩

lemma descend_reentrant (l n : ℕ) (curr : Bytes) :
    ∃ t', descend score .reentrant q l n curr t = (lift (t.index.descendLocked score q l n curr),t') ∧
      t'.index = t.index := by
  induction n generalizing curr t with
  | zero => exact ⟨t,rfl,rfl⟩
  | succ n ih =>
    obtain ⟨t',hclosest,hindex⟩ := greedyClosest_reentrant (t := t) score q curr (l+n+1)
    rw [descend,hclosest,descendLocked]
    cases t.index.greedyClosestLocked score q curr (l+n+1) with
    | error p => exact ⟨t',rfl,hindex⟩
    | ok next =>
      obtain ⟨t'',hrest,hindex'⟩ := ih next
      rw [hindex] at hrest hindex'
      exact ⟨t'',hrest,hindex'⟩

/-- What connecting a node does to the graph, however it ends: it grows, and the goroutine is not blocked. -/
lemma connect_grows (id : Bytes) (n : ℕ) (curr : Bytes) :
    Grows t.index (connect score .reentrant q id n curr t).2.index ∧
      (connect score .reentrant q id n curr t).1 ≠ .error .blocked := by
  induction n generalizing curr t with
  | zero => exact ⟨Grows.refl _,by simp [connect]⟩
  | succ lc ih =>
    obtain ⟨t',hsearch,hindex⟩ := searchLayer_reentrant (t := t) score q curr (t.index.m*2) lc
    rw [connect,hsearch]
    cases t.index.searchLayerLocked score q curr (t.index.m*2) lc with
    | error p => exact ⟨hindex ▸ Grows.refl _,by simp [lift]⟩
    | ok neighbours =>
      have hgrows : Grows t.index (linkNeighbours id lc neighbours t'.index).2 :=
        hindex ▸ linkNeighbours_grows id lc neighbours _
      simp only [lift]
      have hresult := linkNeighbours_not_blocked id lc neighbours t'.index
      rcases hlink : linkNeighbours id lc neighbours t'.index with ⟨_ | _,h'⟩
      · rw [hlink] at hgrows hresult
        exact ⟨hgrows,hresult⟩
      · rw [hlink] at hgrows
        cases neighbours with
        | nil => exact ⟨hgrows,by simp⟩
        | cons next _ =>
          obtain ⟨hrest,hresult⟩ := ih (t := { t' with index := h' }) next
          exact ⟨hgrows.trans hrest,hresult⟩

/-- One layer of `connect`, from a start that has the layer: the neighbours are the best of the nodes that can be
reached. -/
lemma connect_succ {curr : Bytes} (hm : 1≤t.index.m)
    (hlinks : t.index.LinksStand) (hid : t.index.Stands lc id) (hstart : t.index.Stands lc curr) :
    ∃ next rest seen t', connect score .reentrant q id (lc+1) curr t = connect score .reentrant q id lc next t' ∧
      t'.index = (linkNeighbours id lc (next::rest) t.index).2 ∧ t'.index.LinksStand ∧ seen.Nodup ∧
      (∀ x, x ∈ seen ↔ Reaches (t.index.linksAt lc) curr x) ∧ List.Subperm (next::rest) seen ∧
      (next::rest).length = min (t.index.m*2) seen.length := by
  obtain ⟨out,seen,hout,hnodup,hseen,hsub,hlength⟩ := searchLayerLocked_eq_ok score q hlinks hstart (t.index.m*2)
  obtain ⟨t',hsearch,hindex⟩ := searchLayer_reentrant (t := t) score q curr (t.index.m*2 : ℕ) lc
  have hstands : ∀ nb ∈ out, t.index.Stands lc nb :=
    fun nb hnb => Reaches.stands hlinks hstart ((hseen nb).mp (hsub.subset hnb))
  have hne : out ≠ [] := ne_nil_of_searchLayerLocked (by omega) hseen hlength
  obtain ⟨h',hlink,hlinks'⟩ := linkNeighbours_eq_ok hlinks hid hstands
  rw [hout] at hsearch
  push_cast at hsearch
  cases out with
  | nil => exact absurd rfl hne
  | cons next rest =>
    refine ⟨next,rest,seen,{ t' with index := h' },?_,by rw [hlink],hlinks',hnodup,hseen,hsub,hlength (by omega)⟩
    rw [connect,hsearch]
    simp only [lift,hindex,hlink]

/-- From a start with the layer, a node that stands is connected without a panic. -/
theorem connect_eq_ok {n : ℕ} {curr : Bytes} (hm : 1≤t.index.m)
    (hlinks : t.index.LinksStand) (hid : ∀ lc < n, t.index.Stands lc id) (hcurr : ∀ lc < n, t.index.Stands lc curr) :
    ∃ t', connect score .reentrant q id n curr t = (.ok (),t') ∧ t'.index.LinksStand := by
  induction n generalizing curr t with
  | zero => exact ⟨t,rfl,hlinks⟩
  | succ lc ih =>
    have hlast := Nat.lt_succ_self lc
    obtain ⟨next,rest,seen,t',heq,hindex,hlinks',-,hseen,hsub,-⟩ :=
      connect_succ score q hm hlinks (hid lc hlast) (hcurr lc hlast)
    have hgrows : Grows t.index t'.index := hindex ▸ linkNeighbours_grows id lc (next::rest) t.index
    have hnext : t.index.Stands lc next :=
      Reaches.stands hlinks (hcurr lc hlast) ((hseen next).mp (hsub.subset mem_cons_self))
    rw [heq]
    refine ih (hgrows.m_eq ▸ hm) hlinks' (fun lc' hlc' => ?_) fun lc' hlc' => ?_
    · exact (hgrows.stands_iff lc' id).mpr (hid lc' (hlc'.trans hlast))
    · exact (hgrows.stands_iff lc' next).mpr (hnext.mono hlc'.le)

end Connecting

section Constants
variable {t : Goroutine F} (mutex : Mutex)

lemma under_index {α : Type*} (acquire free : LockEvent) (body : Goroutine F → Except Fault α × Goroutine F)
    (t : Goroutine F) :
    (under mutex acquire free body t).2.index = t.index ∨
      (under mutex acquire free body t).2.index = (body (t.release acquire)).2.index := by
  rw [under,request]
  split
  · rename_i hreq
    split at hreq <;> cases hreq
    exact .inl rfl
  · rename_i hreq
    split at hreq <;> cases hreq
    exact .inr (deferred_index _ _)

lemma descend_index (score : List F → List F → S) (q : List F) (l n : ℕ) (curr : Bytes) :
    (descend score mutex q l n curr t).2.index = t.index := by
  induction n generalizing curr t with
  | zero => rfl
  | succ n ih =>
    have hindex : (greedyClosest score mutex q curr (l+n+1) t).2.index = t.index :=
      (under_index mutex .RLock .RUnlock _ t).elim (fun h => h) fun h => h
    rw [descend]
    rcases hclosest : greedyClosest score mutex q curr (l+n+1) t with ⟨_ | next,t'⟩
    · rw [hclosest] at hindex
      exact hindex
    · rw [hclosest] at hindex
      exact (ih next).trans hindex

lemma connect_constants (score : List F → List F → S) (q : List F) (id : Bytes) (n : ℕ) (curr : Bytes) :
    (connect score mutex q id n curr t).2.index.dim = t.index.dim ∧
      (connect score mutex q id n curr t).2.index.m = t.index.m := by
  induction n generalizing curr t with
  | zero => exact ⟨rfl,rfl⟩
  | succ lc ih =>
    have hindex : (searchLayer score mutex q curr (t.index.m*2) lc t).2.index = t.index :=
      (under_index mutex .RLock .RUnlock _ t).elim (fun h => h) fun h => h
    rw [connect]
    rcases hsearch : searchLayer score mutex q curr (t.index.m*2) lc t with ⟨_ | neighbours,t'⟩
    · rw [hsearch] at hindex
      exact ⟨congrArg HNSWIndex.dim hindex,congrArg HNSWIndex.m hindex⟩
    · rw [hsearch] at hindex
      have hgrows : Grows t.index (linkNeighbours id lc neighbours t'.index).2 :=
        hindex ▸ linkNeighbours_grows id lc neighbours _
      simp only
      rcases hlink : linkNeighbours id lc neighbours t'.index with ⟨_ | _,h'⟩
      · rw [hlink] at hgrows
        exact ⟨hgrows.dim_eq,hgrows.m_eq⟩
      · rw [hlink] at hgrows
        cases neighbours with
        | nil => exact ⟨hgrows.dim_eq,hgrows.m_eq⟩
        | cons next _ =>
          obtain ⟨hdim,hm⟩ := ih (t := { t' with index := h' }) next
          exact ⟨hdim.trans hgrows.dim_eq,hm.trans hgrows.m_eq⟩

lemma add_constants (score : List F → List F → S) (id : Bytes) (vec : List F) (l : Fin 9) (t : Goroutine F) :
    (add score mutex id vec l t).2.index.dim = t.index.dim ∧ (add score mutex id vec l t).2.index.m = t.index.m := by
  have hlocked (t : Goroutine F) : (addLocked score mutex id vec l t).2.index.dim = t.index.dim ∧
      (addLocked score mutex id vec l t).2.index.m = t.index.m := by
    rw [addLocked]
    split
    · exact ⟨rfl,rfl⟩
    · have hindex := descend_index (t := { t with index := t.index.insertNode id vec l }) mutex score vec l
        ((t.index.insertNode id vec l).maxLayer-l) (t.index.insertNode id vec l).entry
      rcases hdescend : descend score mutex vec l ((t.index.insertNode id vec l).maxLayer-l)
        (t.index.insertNode id vec l).entry
        { t with index := t.index.insertNode id vec l } with ⟨_ | curr,t₂⟩
      · have hindex : t₂.index = t.index.insertNode id vec l := by rwa [hdescend] at hindex
        simp only [hindex]
        exact ⟨rfl,rfl⟩
      · have hindex : t₂.index = t.index.insertNode id vec l := by rwa [hdescend] at hindex
        have hconnect := connect_constants (t := t₂) mutex score vec id (l+1) curr
        rw [hindex] at hconnect
        simp only
        rcases hresult : connect score mutex vec id (l+1) curr t₂ with ⟨_ | _,t₃⟩
        · rw [hresult] at hconnect
          exact hconnect
        · rw [hresult] at hconnect
          rw [raiseEntry]
          split <;> exact hconnect
  rw [add]
  split
  · exact ⟨rfl,rfl⟩
  · rcases under_index mutex .Lock .Unlock (addLocked score mutex id vec l) t with hindex | hindex
    · rw [hindex]
      exact ⟨rfl,rfl⟩
    · rw [hindex]
      exact hlocked (t.release .Lock)

end Constants
end TitanKV.Services.Rag.HNSWIndex
