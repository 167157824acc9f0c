import Mathlib.Tactic

/-! A directory: named files in the order they were created. Names are unique in every
directory that is built with these operations. -/
namespace TitanKV
open List

abbrev Directory (κ ν : Type*) := List (κ × ν)

namespace Directory
variable {κ ν : Type*} [DecidableEq κ]

def get (d : Directory κ ν) (k : κ) : Option ν := (d.find? fun f => f.1 = k).map Prod.snd

def names (d : Directory κ ν) : List κ := d.map Prod.fst

def set (d : Directory κ ν) (k : κ) (v : ν) : Directory κ ν :=
  if k ∈ d.names then d.map fun f => if f.1 = k then (k,v) else f else d++[(k,v)]

/-- Change the content of a file; a missing file stays missing. -/
def update (d : Directory κ ν) (k : κ) (g : ν → ν) : Directory κ ν :=
  d.map fun f => if f.1 = k then (k,g f.2) else f

def unlink (d : Directory κ ν) (k : κ) : Directory κ ν := d.filter fun f => f.1 ≠ k

variable {d : Directory κ ν} {k : κ}

lemma get_eq_none_iff : d.get k = none ↔ k ∉ d.names := by
  rw [get,names,Option.map_eq_none_iff,find?_eq_none,mem_map]
  constructor
  · rintro h ⟨f,hf,hk⟩
    exact h f hf (by simpa using hk)
  · intro h f hf hk
    exact h ⟨f,hf,by simpa using hk⟩

@[simp] theorem names_update (d : Directory κ ν) (k : κ) (g : ν → ν) : (d.update k g).names = d.names := by
  rw [names,update,map_map]
  apply map_congr_left
  intro f _
  rw [Function.comp_apply]
  split
  · rename_i h
    exact h.symm
  · rfl

theorem get_update (d : Directory κ ν) (k : κ) (g : ν → ν) (k' : κ) :
    (d.update k g).get k' = if k' = k then (d.get k').map g else d.get k' := by
  induction d with
  | nil => simp [update,get]
  | cons f d ih =>
    simp only [update,get,map_cons,find?_cons] at ih ⊢
    by_cases hf : f.1 = k
    · subst hf
      by_cases hk : k' = f.1
      · simp [hk]
      · simpa [hk,Ne.symm hk] using ih
    · by_cases hk : f.1 = k'
      · have hne : ¬ k' = k := fun h => hf (hk.trans h)
        simp [hk,hne]
      · simpa [hf,hk] using ih

theorem get_append (d e : Directory κ ν) (k : κ) : get (d++e) k = (d.get k).or (get e k) := by
  cases h : d.find? (fun f => decide (f.1 = k)) <;> simp [get,h]

theorem get_set (d : Directory κ ν) (k : κ) (v : ν) (k' : κ) :
    (d.set k v).get k' = if k' = k then some v else d.get k' := by
  rw [set]
  split
  · rename_i hmem
    have hu := d.get_update k (fun _ => v) k'
    rw [update] at hu
    rw [hu]
    split
    · rename_i hk
      subst hk
      cases hg : d.get k' with
      | none => exact (get_eq_none_iff.mp hg hmem).elim
      | some x => rfl
    · rfl
  · rename_i hmem
    have hg : d.get k = none := get_eq_none_iff.mpr hmem
    rw [get_append]
    by_cases hk : k' = k
    · subst hk
      rw [hg,if_pos rfl]
      simp [get]
    · simp [get,hk,Ne.symm hk]

variable {v : ν}

lemma mem_set_iff {e : κ × ν} : e ∈ d.set k v ↔ e = (k,v) ∨ e ∈ d ∧ e.1 ≠ k := by
  rw [set]
  split_ifs with hk
  · obtain ⟨g,hg,hgk⟩ := mem_map.mp hk
    constructor
    · intro h
      obtain ⟨f,hf,rfl⟩ := mem_map.mp h
      split_ifs with hfk
      · exact .inl rfl
      · exact .inr ⟨hf,hfk⟩
    · rintro (rfl | ⟨he,hne⟩)
      · exact mem_map.mpr ⟨g,hg,if_pos hgk⟩
      · exact mem_map.mpr ⟨e,he,if_neg hne⟩
  · rw [mem_append,mem_singleton,or_comm]
    refine or_congr_right ⟨fun he => ⟨he,?_⟩,And.left⟩
    rintro rfl
    exact hk (mem_map_of_mem he)

lemma mem_of_mem_set {e : κ × ν} (h : e ∈ d.set k v) : e = (k,v) ∨ e ∈ d :=
  (mem_set_iff.mp h).imp_right And.left

theorem mem_names_set {k k' : κ} : k' ∈ (d.set k v).names ↔ k' = k ∨ k' ∈ d.names := by
  have hget := get_set d k v k'
  rw [← not_iff_not,← get_eq_none_iff,hget,not_or,← get_eq_none_iff]
  split <;> simp [*]

lemma nodup_names_set (h : d.names.Nodup) (k : κ) (v : ν) : (d.set k v).names.Nodup := by
  rw [set]
  split
  · have hnames := names_update d k fun _ => v
    rw [update] at hnames
    rwa [hnames]
  · rename_i hk
    rw [names,map_append,← names,nodup_append]
    refine ⟨h,by simp,?_⟩
    rintro a ha b hb rfl
    obtain rfl := mem_singleton.mp hb
    exact hk ha

omit [DecidableEq κ] in
lemma nodup_names_filter (h : d.names.Nodup) (p : κ × ν → Bool) : (names (d.filter p)).Nodup :=
  h.sublist ((filter_sublist ..).map Prod.fst)

theorem get_filter (d : Directory κ ν) (p : κ → Bool) (k : κ) :
    get (d.filter fun f => p f.1) k = if p k then d.get k else none := by
  induction d with
  | nil => simp [get]
  | cons f d ih =>
    simp only [get,filter_cons,find?_cons] at ih ⊢
    by_cases hf : p f.1
    · by_cases hk : f.1 = k
      · simp [hf,← hk]
      · simpa [hf,hk] using ih
    · by_cases hk : f.1 = k
      · simpa [hf,← hk] using ih
      · simpa [hf,hk] using ih

theorem get_map {ν' : Type*} (d : Directory κ ν) (g : ν → ν') (k : κ) :
    get (d.map fun f => (f.1,g f.2)) k = (d.get k).map g := by
  simp [get,find?_map,Function.comp_def]

lemma filter_update (d : Directory κ ν) (p : κ → Bool) (k : κ) (g : ν → ν) :
    (d.update k g).filter (fun f => p f.1) = update (d.filter fun f => p f.1) k g := by
  unfold update
  rw [filter_map]
  congr 1
  apply filter_congr
  intro f _
  by_cases hf : f.1 = k <;> simp [hf]

lemma update_of_not_mem (h : k ∉ d.names) (g : ν → ν) : d.update k g = d := by
  conv_rhs => rw [← map_id d]
  apply map_congr_left
  intro f hf
  have hne : f.1 ≠ k := fun heq => h (heq ▸ mem_map_of_mem hf)
  simp [hne]

theorem filter_set_of_neg (d : Directory κ ν) {p : κ → Bool} (hk : p k = false) (v : ν) :
    (d.set k v).filter (fun f => p f.1) = d.filter fun f => p f.1 := by
  have hout : k ∉ names (d.filter fun f => p f.1) := by simp [names,hk]
  unfold set
  split
  · exact (filter_update d p k fun _ => v).trans (update_of_not_mem hout _)
  · simp [hk]

theorem filter_set_of_pos (d : Directory κ ν) {p : κ → Bool} (hk : p k = true) (v : ν) :
    (d.set k v).filter (fun f => p f.1) = set (d.filter fun f => p f.1) k v := by
  have hnames : k ∈ names (d.filter fun f => p f.1) ↔ k ∈ d.names := by simp [names,hk]
  by_cases hmem : k ∈ d.names
  · simp only [set,hmem,hnames.mpr hmem,if_true]
    exact filter_update d p k fun _ => v
  · simp [set,hmem,hnames,hk]

omit [DecidableEq κ] in
theorem mem_names_of_mem_iff {d d' : Directory κ ν} {p : κ → Prop} (h : ∀ f, f ∈ d' ↔ f ∈ d ∧ p f.1) :
    k ∈ d'.names ↔ k ∈ d.names ∧ p k := by
  simp only [names,mem_map,h]
  constructor
  · rintro ⟨f,⟨hf,hp⟩,rfl⟩
    exact ⟨⟨f,hf,rfl⟩,hp⟩
  · rintro ⟨⟨f,hf,rfl⟩,hp⟩
    exact ⟨f,⟨hf,hp⟩,rfl⟩

theorem get_unlink (d : Directory κ ν) (k k' : κ) :
    (d.unlink k).get k' = if k' = k then none else d.get k' := by
  induction d with
  | nil => simp [unlink,get]
  | cons f d ih =>
    simp only [unlink,get,filter_cons,find?_cons] at ih ⊢
    by_cases hf : f.1 = k
    · subst hf
      by_cases hk : k' = f.1
      · subst hk
        simp
      · simpa [hk,Ne.symm hk] using ih
    · by_cases hk : f.1 = k'
      · have hne : ¬ k' = k := fun h => hf (hk.trans h)
        simp [hk,hne]
      · simpa [hf,hk] using ih

lemma foldl_unlink (ks : List κ) (d : Directory κ ν) : ks.foldl unlink d = d.filter fun f => f.1 ∉ ks := by
  induction ks generalizing d with
  | nil => simp
  | cons k ks ih =>
    rw [foldl_cons,ih,unlink,filter_filter]
    apply filter_congr
    intro f _
    simp [Bool.and_comm]

lemma get_foldl_unlink (ks : List κ) (d : Directory κ ν) (k : κ) :
    (ks.foldl unlink d).get k = if k ∈ ks then none else d.get k := by
  rw [foldl_unlink,get_filter d fun k => k ∉ ks]
  by_cases hk : k ∈ ks <;> simp [hk]

lemma update_update (d : Directory κ ν) (k : κ) (g h : ν → ν) :
    (d.update k g).update k h = d.update k fun v => h (g v) := by
  rw [update,update,map_map]
  apply map_congr_left
  intro f _
  rw [Function.comp_apply]
  split
  · rw [if_pos rfl]
  · rfl

lemma get_of_mem (hnames : d.names.Nodup) (h : (k,v) ∈ d) : d.get k = some v := by
  induction d with
  | nil => cases h
  | cons f d ih =>
    rw [names,map_cons,nodup_cons] at hnames
    rw [get,find?_cons]
    rcases mem_cons.mp h with rfl | h
    · simp
    · have hne : f.1 ≠ k := fun heq => hnames.1 (heq ▸ mem_map_of_mem h)
      rw [decide_eq_false hne]
      exact ih hnames.2 h

lemma get_of_perm {d d' : Directory κ ν} (hnames : d.names.Nodup) (h : d.Perm d') (k : κ) : d.get k = d'.get k := by
  have hnames' : d'.names.Nodup := (h.map Prod.fst).nodup_iff.mp hnames
  cases hk : d.get k with
  | none =>
    rw [get_eq_none_iff] at hk
    exact (get_eq_none_iff.mpr fun hmem => hk ((h.map Prod.fst).mem_iff.mpr hmem)).symm
  | some v =>
    obtain ⟨f,hf,rfl⟩ := Option.map_eq_some_iff.mp hk
    have hfk : f.1 = k := by simpa using find?_some hf
    exact (get_of_mem hnames' (h.mem_iff.mp (hfk ▸ mem_of_find?_eq_some hf))).symm

lemma update_last (h : k ∉ d.names) (v : ν) (g : ν → ν) :
    update (d++[(k,v)]) k g = d++[(k,g v)] := by
  have hold := update_of_not_mem h g
  unfold update at hold ⊢
  simp [hold]

lemma unlink_head (h : k ∉ d.names) (v : ν) : unlink ((k,v)::d) k = d := by
  rw [unlink,filter_cons]
  simp only [ne_eq,not_true_eq_false,decide_false]
  apply filter_eq_self.mpr
  intro f hf
  simp only [decide_not,Bool.not_eq_eq_eq_not,Bool.not_true,decide_eq_false_iff_not]
  rintro rfl
  exact h (mem_map_of_mem hf)

end Directory
end TitanKV
