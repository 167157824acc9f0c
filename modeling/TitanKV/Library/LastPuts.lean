import Mathlib.Data.List.Sort
import TitanKV.Library.Directory

/-! What a directory holds after a list of puts, and in which order a scan comes to it: of every key the last put, in
the order of the keys. -/
namespace TitanKV.Directory
open List Std
variable {κ ν : Type*} [DecidableEq κ]

def puts (d : Directory κ ν) (ps : List (κ × ν)) : Directory κ ν := ps.foldl (fun d p => d.set p.1 p.2) d

/-- The puts that no later one replaces. -/
def lasts : List (κ × ν) → List (κ × ν)
  | [] => []
  | p::ps => if p.1 ∈ ps.map Prod.fst then lasts ps else p::lasts ps

lemma lasts_sublist (ps : List (κ × ν)) : (lasts ps).Sublist ps := by
  induction ps with
  | nil => exact Sublist.refl _
  | cons p ps ih =>
    rw [lasts]
    split
    · exact ih.cons p
    · exact ih.cons_cons p

variable {ps : List (κ × ν)}

lemma exists_mem_lasts {p : κ × ν} (hp : p ∈ ps) : ∃ q ∈ lasts ps, q.1 = p.1 := by
  induction ps generalizing p with
  | nil => cases hp
  | cons x ps ih =>
    rw [lasts]
    split
    · rename_i hlater
      rcases mem_cons.mp hp with rfl | hp
      · obtain ⟨q,hq,hkey⟩ := mem_map.mp hlater
        obtain ⟨q',hq',hkey'⟩ := ih hq
        exact ⟨q',hq',hkey'.trans hkey⟩
      · exact ih hp
    · rcases mem_cons.mp hp with rfl | hp
      · exact ⟨p,mem_cons_self,rfl⟩
      · obtain ⟨q,hq,hkey⟩ := ih hp
        exact ⟨q,mem_cons_of_mem x hq,hkey⟩

lemma mem_lasts_append {ps qs : List (κ × ν)} {e : κ × ν} (h : e ∈ lasts qs) : e ∈ lasts (ps++qs) := by
  induction ps with
  | nil => exact h
  | cons p ps ih =>
    rw [cons_append,lasts]
    split
    · exact ih
    · exact mem_cons_of_mem p ih

variable {d : Directory κ ν}

theorem mem_puts_iff {e : κ × ν} :
    e ∈ d.puts ps ↔ e ∈ lasts ps ∨ e ∈ d ∧ e.1 ∉ ps.map Prod.fst := by
  induction ps generalizing d with
  | nil => simp [puts,lasts]
  | cons p ps ih =>
    change e ∈ (d.set p.1 p.2).puts ps ↔ _
    rw [ih,mem_set_iff,lasts,map_cons,mem_cons]
    by_cases hlater : p.1 ∈ ps.map Prod.fst
    · grind
    · grind

lemma nodup_names_puts (h : d.names.Nodup) (ps : List (κ × ν)) : (d.puts ps).names.Nodup := by
  induction ps generalizing d with
  | nil => exact h
  | cons p ps ih => exact ih (nodup_names_set h p.1 p.2)

section Ordered
variable [Ord κ]

def ordered (d : Directory κ ν) : Directory κ ν := d.insertionSort fun a b => (compare a.1 b.1).isLE = true

def Ascending (d : Directory κ ν) : Prop := d.Pairwise fun a b => compare a.1 b.1 = .lt

omit [DecidableEq κ] in
lemma mem_ordered_iff {d : Directory κ ν} {e : κ × ν} : e ∈ d.ordered ↔ e ∈ d := mem_insertionSort _

variable [TransOrd κ]

omit [DecidableEq κ] in
lemma Ascending.eq_of_mem_iff {d d' : Directory κ ν} (h : d.Ascending) (h' : d'.Ascending)
    (hmem : ∀ e, e ∈ d ↔ e ∈ d') :
    d = d' := by
  have hirrefl : Irrefl fun a b : κ × ν => compare a.1 b.1 = .lt :=
    ⟨fun a ha => by rw [ReflOrd.compare_self] at ha; cases ha⟩
  have hanti : Antisymm fun a b : κ × ν => compare a.1 b.1 = .lt :=
    ⟨fun a b hab hba => by rw [OrientedCmp.gt_of_lt hab] at hba; cases hba⟩
  exact Pairwise.eq_of_mem_iff h h' hmem

omit [DecidableEq κ] in
lemma ascending_ordered [LawfulEqOrd κ] {d : Directory κ ν} (h : d.names.Nodup) : d.ordered.Ascending := by
  have htotal : Std.Total fun a b : κ × ν => (compare a.1 b.1).isLE = true := by
    refine ⟨fun a b => ?_⟩
    cases hab : compare a.1 b.1 with
    | gt =>
      rw [OrientedCmp.lt_of_gt hab]
      exact .inr rfl
    | lt | eq => exact .inl rfl
  have htrans : IsTrans (κ × ν) fun a b => (compare a.1 b.1).isLE = true := ⟨fun _ _ _ => TransCmp.isLE_trans⟩
  have hsorted := pairwise_insertionSort (fun a b : κ × ν => (compare a.1 b.1).isLE = true) d
  have hnodup : d.ordered.names.Nodup := ((perm_insertionSort _ d).map Prod.fst).nodup_iff.mpr h
  have hne : d.ordered.Pairwise fun a b => a.1 ≠ b.1 := pairwise_map.mp hnodup
  refine (hsorted.and hne).imp ?_
  rintro a b ⟨hle,hab⟩
  cases hc : compare a.1 b.1 with
  | lt => rfl
  | eq => exact (hab (LawfulEqOrd.eq_of_compare hc)).elim
  | gt =>
    rw [hc] at hle
    cases hle

def found (p : κ → Bool) (ps : List (κ × ν)) : Directory κ ν := ordered ((puts [] ps).filter fun e => p e.1)

omit [TransOrd κ] in
lemma mem_found_iff {p : κ → Bool} {ps : List (κ × ν)} {e : κ × ν} :
    e ∈ found p ps ↔ e ∈ lasts ps ∧ p e.1 = true := by
  rw [found,mem_ordered_iff,mem_filter,mem_puts_iff]
  simp

lemma ascending_found [LawfulEqOrd κ] (p : κ → Bool) (ps : List (κ × ν)) : (found p ps).Ascending := by
  have hnil : names ([] : Directory κ ν) = [] := rfl
  exact ascending_ordered (nodup_names_filter (nodup_names_puts (hnil ▸ nodup_nil) ps) _)

end Ordered
end TitanKV.Directory
