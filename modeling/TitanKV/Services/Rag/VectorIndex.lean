import TitanKV.Services.Rag.HnswLocks
import TitanKV.Services.Rag.SideIndex

/-! The two kinds of index behind one interface. The service only relies on what the interface says about them: which
vectors an index has after a call that returns. -/
namespace TitanKV.Services.Rag
open List Directory
open Minikv (Bytes)

universe u

/-- The interfaces `VectorIndex` and `SnapshotStore`. A call that does not return has no result; `Draw` is what an
index draws at random for a vector. -/
structure VectorIndex (F : Type u) where
  Index : Type u
  Draw : Type
  new : ℕ → Index
  dim : Index → ℕ
  add : Index → Bytes → List F → Draw → Option Index
  clearByPrefix : Index → Bytes → Option Index
  saveSnapshot : Index → Snapshot F
  saveSnapshotPrefix : Index → Bytes → Snapshot F
  /-- What `MergeSnapshot` does with one vector of the file. -/
  mergeVector : Index → Bytes → List F → Draw → Option Index
  dim_new : ∀ n, dim (new n) = n
  vectors_new : ∀ n, (saveSnapshot (new n)).vectors = []
  add_of_length_ne : ∀ {idx id vec l}, vec.length ≠ dim idx → add idx id vec l = some idx
  dim_add : ∀ {idx id vec l idx'}, add idx id vec l = some idx' → dim idx' = dim idx
  mem_add : ∀ {idx id vec l idx'}, vec.length = dim idx → add idx id vec l = some idx' →
    ∀ v, v ∈ (saveSnapshot idx').vectors ↔ v = (id,vec) ∨ v ∈ (saveSnapshot idx).vectors ∧ v.1 ≠ id
  dim_mergeVector : ∀ {idx id vec l idx'}, mergeVector idx id vec l = some idx' → dim idx' = dim idx
  mem_mergeVector : ∀ {idx id vec l idx'}, vec.length = dim idx → mergeVector idx id vec l = some idx' →
    ∀ v, v ∈ (saveSnapshot idx').vectors ↔ v = (id,vec) ∨ v ∈ (saveSnapshot idx).vectors ∧ v.1 ≠ id
  dim_clearByPrefix : ∀ {idx pre idx'}, clearByPrefix idx pre = some idx' → dim idx' = dim idx
  mem_clearByPrefix : ∀ {idx pre idx'}, clearByPrefix idx pre = some idx' →
    ∀ v, v ∈ (saveSnapshot idx').vectors ↔ v ∈ (saveSnapshot idx).vectors ∧ ¬pre.isPrefixOf v.1 = true
  mem_saveSnapshotPrefix : ∀ idx pre v, v ∈ (saveSnapshotPrefix idx pre).vectors ↔
    v ∈ (saveSnapshot idx).vectors ∧ pre.isPrefixOf v.1 = true

namespace VectorIndex
variable {F : Type u} (I : VectorIndex F)

def ids (idx : I.Index) : List Bytes := (I.saveSnapshot idx).vectors.names

/-- One call for each vector, with the draws in this order. -/
def putAll (put : I.Index → Bytes → List F → I.Draw → Option I.Index) :
    (ℕ → I.Draw) → Directory Bytes (List F) → I.Index → Option I.Index
  | _,[],idx => some idx
  | draws,v::vectors,idx => (put idx v.1 v.2 (draws 0)).bind (putAll put (fun i => draws (i+1)) vectors)

def addAll : (ℕ → I.Draw) → Directory Bytes (List F) → I.Index → Option I.Index := I.putAll I.add

def mergeAll : (ℕ → I.Draw) → Directory Bytes (List F) → I.Index → Option I.Index := I.putAll I.mergeVector

/-- The index after some vectors were put into it. -/
structure Puts (idx idx' : I.Index) (vectors : Directory Bytes (List F)) : Prop where
  dim : I.dim idx' = I.dim idx
  ids : ∀ id, id ∈ I.ids idx' ↔ id ∈ vectors.names ∨ id ∈ I.ids idx
  origin : ∀ v ∈ (I.saveSnapshot idx').vectors, v ∈ vectors ∨ v ∈ (I.saveSnapshot idx).vectors

variable {I} {idx idx' idx'' : I.Index} {v : Bytes × List F} {vectors : Directory Bytes (List F)}

lemma Puts.refl (idx : I.Index) : I.Puts idx idx [] := ⟨rfl,fun _ => by simp [names],fun _ hv => .inr hv⟩

lemma Puts.cons (h : I.Puts idx idx' [v]) (h' : I.Puts idx' idx'' vectors) : I.Puts idx idx'' (v::vectors) := by
  refine ⟨h'.dim.trans h.dim,fun id => ?_,fun w hw => ?_⟩
  · rw [h'.ids,h.ids]
    simp only [names,map_cons,map_nil,mem_cons,not_mem_nil,or_false]
    exact or_left_comm.trans or_assoc.symm
  · obtain hw | hw := h'.origin w hw
    · exact .inl (mem_cons_of_mem _ hw)
    · obtain hw | hw := h.origin w hw
      · exact .inl (mem_singleton.mp hw ▸ mem_cons_self)
      · exact .inr hw

lemma Puts.of_mem {id : Bytes} {vec : List F} (hdim : I.dim idx' = I.dim idx)
    (hmem : ∀ v, v ∈ (I.saveSnapshot idx').vectors ↔ v = (id,vec) ∨ v ∈ (I.saveSnapshot idx).vectors ∧ v.1 ≠ id) :
    I.Puts idx idx' [(id,vec)] := by
  refine ⟨hdim,fun k => ?_,fun w hw => ?_⟩
  · simp only [VectorIndex.ids,names,mem_map,hmem,mem_singleton]
    constructor
    · rintro ⟨w,rfl | ⟨hw,-⟩,rfl⟩
      · exact .inl ⟨_,rfl,rfl⟩
      · exact .inr ⟨w,hw,rfl⟩
    · rintro (⟨w,rfl,rfl⟩ | ⟨w,hw,rfl⟩)
      · exact ⟨_,.inl rfl,rfl⟩
      · by_cases hid : w.1 = id
        · exact ⟨_,.inl rfl,hid.symm⟩
        · exact ⟨w,.inr ⟨hw,hid⟩,rfl⟩
  · obtain rfl | ⟨hw,-⟩ := (hmem w).mp hw
    · exact .inl mem_cons_self
    · exact .inr hw

theorem puts_addAll {draws : ℕ → I.Draw} (h : I.addAll draws vectors idx = some idx') :
    I.Puts idx idx' (vectors.filter fun v => v.2.length = I.dim idx) := by
  induction vectors generalizing draws idx with
  | nil =>
    cases h
    exact .refl _
  | cons v vectors ih =>
    obtain ⟨idx₁,hadd,hrest⟩ := Option.bind_eq_some_iff.mp h
    have hputs := ih hrest
    rw [I.dim_add hadd] at hputs
    by_cases hdim : v.2.length = I.dim idx
    · rw [filter_cons_of_pos (by simpa using hdim)]
      exact (Puts.of_mem (I.dim_add hadd) (I.mem_add hdim hadd)).cons hputs
    · rw [filter_cons_of_neg (by simpa using hdim)]
      rw [I.add_of_length_ne hdim] at hadd
      cases hadd
      exact hputs

theorem puts_mergeAll {draws : ℕ → I.Draw} (hfits : ∀ v ∈ vectors, v.2.length = I.dim idx)
    (h : I.mergeAll draws vectors idx = some idx') :
    I.Puts idx idx' vectors := by
  induction vectors generalizing draws idx with
  | nil =>
    cases h
    exact .refl _
  | cons v vectors ih =>
    obtain ⟨idx₁,hmerge,hrest⟩ := Option.bind_eq_some_iff.mp h
    obtain ⟨hv,hvectors⟩ := forall_mem_cons.mp hfits
    have hputs := ih (by rwa [I.dim_mergeVector hmerge]) hrest
    exact (Puts.of_mem (I.dim_mergeVector hmerge) (I.mem_mergeVector hv hmerge)).cons hputs

lemma mem_ids_clearByPrefix {pre id : Bytes} (h : I.clearByPrefix idx pre = some idx') :
    id ∈ I.ids idx' ↔ id ∈ I.ids idx ∧ ¬pre.isPrefixOf id = true :=
  mem_names_of_mem_iff (p := fun id => ¬pre.isPrefixOf id = true) (I.mem_clearByPrefix h)

lemma mem_names_saveSnapshotPrefix {pre id : Bytes} :
    id ∈ (I.saveSnapshotPrefix idx pre).vectors.names ↔ id ∈ I.ids idx ∧ pre.isPrefixOf id = true :=
  mem_names_of_mem_iff (p := fun id => pre.isPrefixOf id = true) (I.mem_saveSnapshotPrefix idx pre)

end VectorIndex

/-- The brute-force index, whose calls all return. -/
def SideIndex.asVectorIndex (F : Type u) : VectorIndex F where
  Index := SideIndex F
  Draw := Unit
  new := .new
  dim := SideIndex.dim
  add idx id vec _ := some (idx.add id vec)
  clearByPrefix idx pre := some (idx.clearByPrefix pre)
  saveSnapshot := saveSnapshot
  saveSnapshotPrefix := saveSnapshotPrefix
  mergeVector idx id vec _ := some (idx.mergeVector id vec)
  dim_new _ := rfl
  vectors_new _ := rfl
  add_of_length_ne h := by rw [SideIndex.add,if_pos h]
  dim_add := by
    rintro idx id vec - idx' ⟨⟩
    exact dim_add ..
  mem_add := by
    rintro idx id vec - idx' hdim ⟨⟩ v
    rw [SideIndex.add,if_neg (not_not.mpr hdim)]
    exact mem_set_iff
  dim_mergeVector := by
    rintro idx id vec - idx' ⟨⟩
    rfl
  mem_mergeVector := by
    rintro idx id vec - idx' - ⟨⟩ v
    exact mem_set_iff
  dim_clearByPrefix := by
    rintro idx pre idx' ⟨⟩
    rfl
  mem_clearByPrefix := by
    rintro idx pre idx' ⟨⟩ v
    exact mem_filter.trans (and_congr_right fun _ => decide_eq_true_iff)
  mem_saveSnapshotPrefix _ _ _ := mem_filter

namespace HNSWIndex
variable {F : Type u} {S : Type*} [LinearOrder S] {h : HNSWIndex F}

def exported (h : HNSWIndex F) : Directory Bytes (List F) := h.nodes.map fun node => (node.1,node.2.vec)

lemma step_add (score : List F → List F → S) (h : HNSWIndex F) (id : Bytes) (vec : List F) (l : Fin 9) :
    step score .rwMutex h (.add id vec l) =
      if vec.length ≠ h.dim then some h
      else if h.entry = [] then some { h.insertNode id vec l with entry := id, maxLayer := l }
      else none := by
  rw [step,perform]
  split_ifs with hdim hentry
  · rw [add,if_pos hdim]
  · rw [add_of_entry_nil _ rfl l (not_not.mp hdim) hentry]
  · rw [add_of_entry rfl l (not_not.mp hdim) hentry]

variable {vec : List F} {id : Bytes}

lemma mem_exported_insertNode {l : ℕ} {v : Bytes × List F} :
    v ∈ (h.insertNode id vec l).exported ↔ v = (id,vec) ∨ v ∈ h.exported ∧ v.1 ≠ id := by
  simp only [exported,insertNode,mem_map,mem_set_iff]
  constructor
  · rintro ⟨node,rfl | ⟨hnode,hne⟩,rfl⟩
    · exact .inl rfl
    · exact .inr ⟨⟨node,hnode,rfl⟩,hne⟩
  · rintro (rfl | ⟨⟨node,hnode,rfl⟩,hne⟩)
    · exact ⟨_,.inl rfl,rfl⟩
    · exact ⟨node,.inr ⟨hnode,hne⟩,rfl⟩

lemma mem_exported_clearLocked {pre : Bytes} {v : Bytes × List F} :
    v ∈ (h.clearLocked pre).exported ↔ v ∈ h.exported ∧ ¬pre.isPrefixOf v.1 = true := by
  simp only [exported,clearLocked,mem_map,mem_filter,decide_eq_true_eq]
  constructor
  · rintro ⟨node,⟨hnode,hpre⟩,rfl⟩
    exact ⟨⟨node,hnode,rfl⟩,hpre⟩
  · rintro ⟨⟨node,hnode,rfl⟩,hpre⟩
    exact ⟨node,⟨hnode,hpre⟩,rfl⟩

lemma eq_of_step_add {score : List F → List F → S} {l : Fin 9} {h' : HNSWIndex F}
    (hdim : vec.length = h.dim) (hstep : step score .rwMutex h (.add id vec l) = some h') :
    h' = { h.insertNode id vec l with entry := id, maxLayer := l } := by
  rw [step_add,if_neg (not_not.mpr hdim)] at hstep
  split_ifs at hstep
  exact (Option.some.inj hstep).symm

lemma dim_of_step_add {score : List F → List F → S} {l : Fin 9} {h' : HNSWIndex F}
    (hstep : step score .rwMutex h (.add id vec l) = some h') : h'.dim = h.dim := by
  by_cases hdim : vec.length = h.dim
  · rw [eq_of_step_add hdim hstep]
    rfl
  · rw [step_add,if_pos hdim] at hstep
    rw [Option.some.inj hstep]

/-- The graph index: `MergeSnapshot` calls `Add`. -/
def asVectorIndex (score : List F → List F → S) : VectorIndex F where
  Index := HNSWIndex F
  Draw := Fin 9
  new := .new
  dim := HNSWIndex.dim
  add h id vec l := step score .rwMutex h (.add id vec l)
  clearByPrefix h pre := step score .rwMutex h (.clearByPrefix pre)
  saveSnapshot h := ⟨h.dim,h.exported⟩
  saveSnapshotPrefix h pre := ⟨h.dim,h.exported.filter fun v => pre.isPrefixOf v.1⟩
  mergeVector h id vec l := step score .rwMutex h (.add id vec l)
  dim_new _ := rfl
  vectors_new _ := rfl
  add_of_length_ne hne := by rw [step_add,if_pos hne]
  dim_add := dim_of_step_add
  mem_add := by
    intro h id vec l h' hdim hstep v
    rw [eq_of_step_add hdim hstep]
    exact mem_exported_insertNode
  dim_mergeVector := dim_of_step_add
  mem_mergeVector := by
    intro h id vec l h' hdim hstep v
    rw [eq_of_step_add hdim hstep]
    exact mem_exported_insertNode
  dim_clearByPrefix := by
    rintro h pre h' ⟨⟩
    rfl
  mem_clearByPrefix := by
    rintro h pre h' ⟨⟩ v
    exact mem_exported_clearLocked
  mem_saveSnapshotPrefix _ _ _ := mem_filter

end HNSWIndex

inductive IndexType
  | brute
  | hnsw
  deriving DecidableEq,Repr

def newVectorIndex {F : Type u} {S : Type*} [LinearOrder S] (score : List F → List F → S) : IndexType → VectorIndex F
  | .hnsw => HNSWIndex.asVectorIndex score
  | .brute => SideIndex.asVectorIndex F

end TitanKV.Services.Rag
