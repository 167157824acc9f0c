import TitanKV.Services.Rag.Chunks

/-! The brute-force index of the RAG service: a map from chunk ids to vectors, and the snapshot files it is
written to and read from. A map is visited in any order. -/
namespace TitanKV.Services.Rag
open Minikv (Bytes)

structure SideIndex (F : Type*) where
  dim : ℕ
  vectors : Directory Bytes (List F)
  distinct : vectors.names.Nodup

/-- What a snapshot file holds. -/
structure Snapshot (F : Type*) where
  dim : ℕ
  vectors : Directory Bytes (List F)

namespace SideIndex
variable {F S : Type*} [LinearOrder S]

def new (dim : ℕ) : SideIndex F := ⟨dim,[],.nil⟩

/-- A vector of another length is ignored. -/
def add (idx : SideIndex F) (chunkID : Bytes) (vec : List F) : SideIndex F :=
  if vec.length ≠ idx.dim then idx
  else ⟨idx.dim,idx.vectors.set chunkID vec,Directory.nodup_names_set idx.distinct chunkID vec⟩

def clearByPrefix (idx : SideIndex F) (pre : Bytes) : SideIndex F :=
  ⟨idx.dim,idx.vectors.filter fun v => ¬pre.isPrefixOf v.1,Directory.nodup_names_filter idx.distinct _⟩

/-- `order` is the order in which the map is visited. A round of the selection exchanges the first maximum with the
item in front. -/
def topK (score : List F → List F → S) (order : Directory Bytes (List F)) (query : List F) (k : ℤ) : List (Hit S) :=
  let k := if k≤0 then 5 else k
  ((Extraction.swapFirstMax Hit.score).select k.toNat (order.map fun v => ⟨v.1,score query v.2⟩)).1

def saveSnapshot (idx : SideIndex F) : Snapshot F := ⟨idx.dim,idx.vectors⟩

def saveSnapshotPrefix (idx : SideIndex F) (pre : Bytes) : Snapshot F :=
  ⟨idx.dim,idx.vectors.filter fun v => pre.isPrefixOf v.1⟩

/-- One vector of `mergeSnapshot`. Its length is not compared with the dimension. -/
def mergeVector (idx : SideIndex F) (chunkID : Bytes) (vec : List F) : SideIndex F :=
  ⟨idx.dim,idx.vectors.set chunkID vec,Directory.nodup_names_set idx.distinct chunkID vec⟩

@[simp] lemma dim_add (idx : SideIndex F) (chunkID : Bytes) (vec : List F) :
    (idx.add chunkID vec).dim = idx.dim := by
  rw [add]
  split <;> rfl

/-- The hits are `k` best vectors for the query, best first, or all of them. -/
structure IsTopK (score : List F → List F → S) (query : List F) (vectors : Directory Bytes (List F)) (k : ℕ)
    (hits : List (Hit S)) : Prop where
  length : hits.length = min k vectors.length
  distinct : (hits.map Hit.chunkID).Nodup
  ordered : hits.Pairwise fun a b => b.score≤a.score
  scored : ∀ h ∈ hits, ∃ vec, (h.chunkID,vec) ∈ vectors ∧ h.score = score query vec
  best : ∀ v ∈ vectors, v.1 ∉ hits.map Hit.chunkID → ∀ h ∈ hits, score query v.2 ≤ h.score

theorem isTopK_topK (score : List F → List F → S) (idx : SideIndex F) {order : Directory Bytes (List F)}
    (horder : List.Perm order idx.vectors) (query : List F) (k : ℤ) :
    IsTopK score query idx.vectors (if k ≤ 0 then 5 else k.toNat) (topK score order query k) := by
  have hk : (if k ≤ 0 then 5 else k).toNat = if k≤0 then 5 else k.toNat := apply_ite ..
  let E := Extraction.swapFirstMax (Hit.score (S := S))
  have hcands := E.select_perm (if k ≤ 0 then 5 else k.toNat) (order.map fun v => ⟨v.1,score query v.2⟩)
  rw [topK,hk]
  refine ⟨?_,?_,E.select_pairwise _ _,fun h hh => ?_,fun v hv hout h hh => ?_⟩
  · rw [E.length_select,List.length_map,horder.length_eq]
  · have hids := (hcands.map Hit.chunkID).trans (List.Perm.of_eq (List.map_map ..))
    have hnodup := hids.nodup_iff.mpr ((horder.map Prod.fst).nodup_iff.mpr idx.distinct)
    rw [List.map_append] at hnodup
    exact hnodup.of_append_left
  · obtain ⟨v,hv,rfl⟩ := List.mem_map.mp (hcands.subset (List.mem_append_left _ hh))
    exact ⟨v.2,horder.subset hv,rfl⟩
  · have hcand := hcands.symm.subset (List.mem_map_of_mem (horder.symm.subset hv))
    rcases List.mem_append.mp hcand with hin | hrest
    · exact absurd (List.mem_map_of_mem hin) hout
    · exact E.le_of_mem_select hh hrest

/-- The map is visited backwards, and two vectors have the best score. -/
theorem isTopK_topK_tie : IsTopK (fun _ vec => vec.sum) [] [([1],[2]),([2],[3]),([3],[3])] 5
    (topK (fun _ vec => vec.sum) [([3],[3]),([2],[3]),([1],[2])] [] (-1)) :=
  isTopK_topK (fun _ vec => vec.sum) ⟨1,[([1],[2]),([2],[3]),([3],[3])],by decide⟩ (by decide) [] (-1)

end SideIndex
end TitanKV.Services.Rag
