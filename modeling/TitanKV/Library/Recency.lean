import Mathlib.Data.List.MinMax
import Mathlib.Tactic

/-! Runs on levels that each hold a version of one item. `time` says when a version was written and
`rank` is what a merge goes by when it chooses one of several versions, the first of the highest rank.
Ranks need not agree with times; the order is kept because a merge takes a whole level. -/
namespace TitanKV
open List
variable {ρ : Type*} {rank time : ρ → ℕ} {outdated : ρ → Prop}

/-- Later runs of a level and runs of shallower levels hold newer versions. A run may be outdated by
the result of a merge it was part of; but no end of a level is: what a merge would choose of it
is as new as everything deeper. -/
structure Recency (rank time : ρ → ℕ) (outdated : ρ → Prop) (levels : ℕ → List ρ) : Prop where
  level : ∀ i, (levels i).Pairwise fun a b => time a ≤ time b
  deeper : ∀ i j, i<j → ∀ a ∈ levels i, ∀ b ∈ levels j, time b ≤ time a ∨ outdated a
  picked : ∀ i j, i<j → ∀ l, l <:+ levels i → ∀ a ∈ l.argmax rank, ∀ b ∈ levels j, time b ≤ time a

section Argmax

lemma argmax_congr {rank' : ρ → ℕ} {l : List ρ} (h : ∀ a ∈ l, rank' a = rank a) :
    l.argmax rank' = l.argmax rank := by
  induction l with
  | nil => rfl
  | cons x l ih =>
    rw [argmax_cons,argmax_cons,ih fun a ha => h a (mem_cons_of_mem x ha)]
    cases hc : l.argmax rank with
    | none => rfl
    | some c =>
      dsimp only
      rw [h x (by simp),h c (mem_cons_of_mem x (argmax_mem hc))]

lemma argmax_append (l m : List ρ) : (l++m).argmax rank =
    match l.argmax rank, m.argmax rank with
    | none,b => b
    | some a,none => some a
    | some a,some b => if rank a < rank b then some b else some a := by
  induction l with
  | nil => rfl
  | cons x l ih =>
    rw [cons_append,argmax_cons,ih,argmax_cons]
    cases l.argmax rank <;> cases m.argmax rank <;> dsimp only <;> split_ifs <;>
      first | rfl | (dsimp only; split_ifs <;> first | rfl | omega)

lemma mem_argmax_of_append {l m : List ρ} {a : ρ} (h : a ∈ (l++m).argmax rank) :
    a ∈ l.argmax rank ∨ a ∈ m.argmax rank := by
  rw [argmax_append] at h
  split at h
  · exact .inr h
  · rename_i ha hb
    exact .inl (ha ▸ h)
  · rename_i ha hb
    split at h
    · exact .inr (hb ▸ h)
    · exact .inl (ha ▸ h)

/-- In a list in order of time, what is chosen of an end is as new as what is chosen of the whole. -/
lemma time_le_of_suffix {l m : List ρ} (hsorted : l.Pairwise fun a b => time a ≤ time b) (hsuffix : m <:+ l)
    {a b : ρ} (ha : a ∈ l.argmax rank) (hb : b ∈ m.argmax rank) : time a ≤ time b := by
  obtain ⟨front,rfl⟩ := hsuffix
  induction front with
  | nil =>
    rw [Option.some.inj (ha.symm.trans hb)]
  | cons x front ih =>
    rw [cons_append,pairwise_cons] at hsorted
    have hmem : b ∈ front++m := mem_append_right front (argmax_mem hb)
    rw [cons_append,argmax_cons] at ha
    cases hrest : (front++m).argmax rank with
    | none =>
      rw [argmax_eq_none.mp hrest] at hmem
      cases hmem
    | some c =>
      rw [hrest] at ha
      dsimp only at ha
      split at ha
      · obtain rfl := Option.some.inj ha
        exact ih hsorted.2 hrest
      · obtain rfl := Option.some.inj ha
        exact hsorted.1 b hmem

end Argmax

lemma suffix_append_cases {l front back : List ρ} (h : l <:+ front++back) :
    l <:+ back ∨ ∃ m, l = m++back ∧ m <:+ front := by
  rcases suffix_or_suffix_of_suffix h (suffix_append front back) with hback | ⟨m,rfl⟩
  · exact .inl hback
  · obtain ⟨t,ht⟩ := h
    rw [← append_assoc] at ht
    exact .inr ⟨m,rfl,t,append_cancel_right ht⟩

namespace Recency
variable {levels levels' : ℕ → List ρ}

lemma of_empty (h : ∀ i, levels i = []) : Recency rank time outdated levels := by
  refine ⟨fun i => by rw [h]; exact Pairwise.nil,?_,?_⟩
  · intro i j _ a ha
    rw [h] at ha
    cases ha
  · intro i j _ l _ a _ b hb
    rw [h] at hb
    cases hb

variable {outdated' : ρ → Prop}

lemma congr {rank' time' : ρ → ℕ} (h : Recency rank time outdated levels)
    (hlevels : ∀ i, levels' i = levels i) (hrank : ∀ i, ∀ a ∈ levels i, rank' a = rank a)
    (htime : ∀ i, ∀ a ∈ levels i, time' a = time a) (hout : ∀ i, ∀ a ∈ levels i, outdated a → outdated' a) :
    Recency rank' time' outdated' levels' := by
  obtain rfl : levels' = levels := funext hlevels
  have hargmax : ∀ i l, l <:+ levels' i → l.argmax rank' = l.argmax rank :=
    fun i l hl => argmax_congr fun a ha => hrank i a (hl.subset ha)
  refine ⟨?_,?_,?_⟩
  · intro i
    refine (h.level i).imp_of_mem ?_
    intro a b ha hb hab
    rwa [htime i a ha,htime i b hb]
  · intro i j hij a ha b hb
    rw [htime i a ha,htime j b hb]
    exact (h.deeper i j hij a ha b hb).imp_right (hout i a ha)
  · intro i j hij l hl a ha b hb
    rw [hargmax i l hl] at ha
    rw [htime i a (hl.subset (argmax_mem ha)),htime j b hb]
    exact h.picked i j hij l hl a ha b hb

lemma drop_front (h : Recency rank time outdated levels) (hsuffix : ∀ i, levels' i <:+ levels i) :
    Recency rank time outdated levels' := by
  refine ⟨fun i => (h.level i).sublist (hsuffix i).sublist,?_,?_⟩
  · exact fun i j hij a ha b hb => h.deeper i j hij a ((hsuffix i).subset ha) b ((hsuffix j).subset hb)
  · exact fun i j hij l hl a ha b hb => h.picked i j hij l (hl.trans (hsuffix i)) a ha b ((hsuffix j).subset hb)

lemma mem_push {n i : ℕ} {l : List ρ} {r a : ρ} (h : a ∈ if n = i then l++[r] else l) :
    a ∈ l ∨ n = i ∧ a = r := by
  split at h
  · rename_i hi
    rcases mem_append.mp h with h | h
    · exact .inl h
    · exact .inr ⟨hi,mem_singleton.mp h⟩
  · exact .inl h

/-- A run may be added behind a level if it is as new as that level and all deeper ones, and if
what lies above it is as new. -/
theorem push (h : Recency rank time outdated levels) {n : ℕ} {r : ρ}
    (hlevels : ∀ i, levels' i = if n = i then levels i ++ [r] else levels i)
    (hold : ∀ i, n ≤ i → ∀ a ∈ levels i, time a ≤ time r)
    (habove : ∀ i, i<n → ∀ a ∈ levels i, time r ≤ time a ∨ outdated a)
    (hpicked : ∀ i, i<n → ∀ l, l <:+ levels i → ∀ a ∈ l.argmax rank, time r ≤ time a) :
    Recency rank time outdated levels' := by
  obtain rfl : levels' = fun i => if n = i then levels i ++ [r] else levels i := funext hlevels
  refine ⟨?_,?_,?_⟩
  · intro i
    split
    · rename_i hi
      refine pairwise_append.mpr ⟨h.level i,pairwise_singleton _ _,?_⟩
      intro a ha b hb
      rw [mem_singleton.mp hb]
      exact hold i hi.le a ha
    · exact h.level i
  · intro i j hij a ha b hb
    rcases mem_push hb with hmem | ⟨rfl,rfl⟩
    · rcases mem_push ha with ha | ⟨rfl,rfl⟩
      · exact h.deeper i j hij a ha b hmem
      · exact .inl (hold j hij.le b hmem)
    · rcases mem_push ha with ha | ⟨hi,-⟩
      · exact habove i hij a ha
      · exact (hij.ne hi.symm).elim
  · intro i j hij l hl a ha b hb
    split at hl
    · -- a deeper run is one of the old ones, and the end may hold the new run
      rename_i hi
      subst hi
      rcases mem_push hb with hb | ⟨hj,-⟩
      · rcases suffix_concat_iff.mp hl with rfl | ⟨m,rfl,hm⟩
        · cases ha
        · rcases mem_argmax_of_append ha with ha | ha
          · exact h.picked n j hij m hm a ha b hb
          · rw [mem_singleton.mp (argmax_mem ha)]
            exact hold j hij.le b hb
      · exact (hij.ne hj).elim
    · rcases mem_push hb with hb | ⟨rfl,rfl⟩
      · exact h.picked i j hij l hl a ha b hb
      · exact hpicked i hij l hl a ha

/-- The result of a merge of the oldest runs of a level may be added to the next level; runs that
hold an older version than the one chosen are outdated from then on. -/
theorem publish (h : Recency rank time outdated levels) {n : ℕ} {sources newer : List ρ} {r c : ρ}
    (hsources : levels n = sources++newer) (hc : c ∈ sources.argmax rank)
    (hdeep : ∀ i, n < i → ∀ b ∈ levels i, time b ≤ time c) (hr : time r = time c)
    (hlevels : ∀ i, levels' i = if n+1 = i then levels i ++ [r] else levels i)
    (hkept : ∀ a, outdated a → outdated' a) (hmarked : ∀ a ∈ sources, time a < time r → outdated' a) :
    Recency rank time outdated' levels' := by
  have hcn : c ∈ levels n := by
    rw [hsources]
    exact mem_append_left newer (argmax_mem hc)
  have hlevel := h.level n
  rw [hsources,pairwise_append] at hlevel
  have hwide : Recency rank time outdated' levels :=
    h.congr (fun _ => rfl) (fun _ _ _ => rfl) (fun _ _ _ => rfl) fun _ a _ => hkept a
  refine hwide.push hlevels (fun i hi b hb => hr ▸ hdeep i hi b hb) ?_ ?_
  · intro i hi a ha
    rcases Nat.lt_succ_iff_lt_or_eq.mp hi with hi | rfl
    · rw [hr]
      exact (h.deeper i n hi a ha c hcn).imp_right (hkept a)
    · by_cases hlt : time a < time r
      · rw [hsources] at ha
        rcases mem_append.mp ha with ha | ha
        · exact .inr (hmarked a ha hlt)
        · have hle := hlevel.2.2 c (argmax_mem hc) a ha
          omega
      · exact .inl (not_lt.mp hlt)
  · intro i hi l hl a ha
    rw [hr]
    rcases Nat.lt_succ_iff_lt_or_eq.mp hi with hi | rfl
    · exact h.picked i n hi l hl a ha c hcn
    · rw [hsources] at hl
      rcases suffix_append_cases hl with hl | ⟨m,rfl,hm⟩
      · exact hlevel.2.2 c (argmax_mem hc) a (hl.subset (argmax_mem ha))
      · rcases mem_argmax_of_append ha with ha | ha
        · exact time_le_of_suffix hlevel.1 hm hc ha
        · exact hlevel.2.2 c (argmax_mem hc) a (argmax_mem ha)

end Recency

/-- What was written at time `t` does not come after the items that still have to be filed. These are
in generations, oldest first; the first of them may have been filed already, up to its last item. -/
def Behind (t : ℕ) : List (List ℕ) → Prop
  | [] => True
  | front::later => (∀ u ∈ front.getLast?, t≤u) ∧ ∀ u ∈ later.flatten, t<u

namespace Behind
variable {t : ℕ} {front front' : List ℕ} {later gens : List (List ℕ)}

lemma of_lt (h : ∀ u ∈ gens.flatten, t<u) : Behind t gens := by
  cases gens with
  | nil => trivial
  | cons front later =>
    refine ⟨fun u hu => ?_,fun u hu => h u (mem_append_right front hu)⟩
    exact (h u (mem_append_left _ (mem_of_mem_getLast? hu))).le

lemma next (h : Behind t (front::later)) : Behind t later := of_lt h.2

lemma drop_front (h : Behind t (front::later)) (hsuffix : front' <:+ front) : Behind t (front'::later) := by
  refine ⟨fun u hu => h.1 u ?_,h.2⟩
  obtain ⟨gone,rfl⟩ := hsuffix
  rw [getLast?_append,Option.mem_def.mp hu]
  rfl

lemma flatten (h : Behind t gens) : Behind t [gens.flatten] := by
  cases gens with
  | nil => exact of_lt fun u hu => by simp at hu
  | cons front later =>
    refine ⟨fun u hu => ?_,fun u hu => by simp at hu⟩
    rw [flatten_cons,getLast?_append] at hu
    cases hlater : later.flatten.getLast? with
    | none =>
      rw [hlater] at hu
      exact h.1 u hu
    | some w =>
      rw [hlater] at hu
      obtain rfl := Option.some.inj hu
      exact (h.2 w (mem_of_mem_getLast? hlater)).le

lemma append {last new : List ℕ} (h : Behind t (gens++[last])) (hnew : ∀ u ∈ new, t<u) :
    Behind t (gens++[last++new]) := by
  cases gens with
  | nil =>
    refine ⟨fun u hu => ?_,h.2⟩
    rw [getLast?_append] at hu
    cases hn : new.getLast? with
    | none =>
      rw [hn] at hu
      exact h.1 u hu
    | some w =>
      rw [hn] at hu
      obtain rfl := Option.some.inj hu
      exact (hnew w (mem_of_mem_getLast? hn)).le
  | cons front later =>
    refine ⟨h.1,?_⟩
    intro u hu
    rw [append_eq,flatten_append,flatten_singleton,← append_assoc] at hu
    rcases mem_append.mp hu with hu | hu
    · refine h.2 u ?_
      rwa [append_eq,flatten_append,flatten_singleton]
    · exact hnew u hu

lemma extend (h : Behind t gens) : Behind t (gens++[[]]) := by
  cases gens with
  | nil => exact ⟨fun u hu => by simp at hu,fun u hu => by simp at hu⟩
  | cons front later =>
    refine ⟨h.1,?_⟩
    intro u hu
    exact h.2 u (by simpa using hu)

lemma last (hsorted : (front::later).flatten.Pairwise (· < ·)) (hlast : t ∈ front.getLast?) :
    Behind t (front::later) := by
  rw [flatten_cons,pairwise_append] at hsorted
  refine ⟨fun u hu => (Option.some.inj (hlast.symm.trans hu)).le,?_⟩
  exact fun u hu => hsorted.2.2 t (mem_of_mem_getLast? hlast) u hu

end Behind
end TitanKV
