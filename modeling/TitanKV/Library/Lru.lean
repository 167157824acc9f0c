import Mathlib.Tactic

/-! Keeping as much of the front of a list as fits, when elements are dropped from its end. -/
namespace TitanKV.Lru
open List
variable {α : Type*} (weight : α → ℕ)

def total (l : List α) : ℕ := (l.map weight).sum

/-- The longest first part that fits. -/
def fit : ℕ → List α → List α
  | _,[] => []
  | capacity,a::l => if weight a ≤ capacity then a::fit (capacity-weight a) l else []

variable {weight} {capacity : ℕ} {l p : List α}

@[simp] theorem total_nil : total weight [] = 0 := rfl

@[simp] theorem total_cons (a : α) : total weight (a::l) = weight a+total weight l := by
  simp [total]

@[simp] theorem total_append (l' : List α) : total weight (l++l') = total weight l+total weight l' := by
  simp [total]

lemma total_le_of_sublist (h : p.Sublist l) : total weight p ≤ total weight l :=
  (h.map weight).sum_le_sum fun _ _ => Nat.zero_le _

theorem prefix_fit_iff : p <+: fit weight capacity l ↔ p <+: l ∧ total weight p ≤ capacity := by
  induction l generalizing p capacity with
  | nil =>
    rw [fit,prefix_nil]
    refine ⟨?_,And.left⟩
    rintro rfl
    exact ⟨rfl,Nat.zero_le _⟩
  | cons a l ih =>
    rw [fit]
    split
    · cases p with
      | nil => simp
      | cons b p =>
        simp only [cons_prefix_cons,ih,total_cons,and_assoc]
        refine and_congr_right ?_
        rintro rfl
        refine and_congr_right fun _ => ?_
        omega
    · cases p with
      | nil => simp
      | cons b p =>
        simp only [prefix_nil,reduceCtorEq,cons_prefix_cons,total_cons,false_iff,not_and]
        rintro ⟨rfl,-⟩
        omega

lemma fit_prefix : fit weight capacity l <+: l := (prefix_fit_iff.mp prefix_rfl).1

lemma total_fit_le : total weight (fit weight capacity l) ≤ capacity := (prefix_fit_iff.mp prefix_rfl).2

lemma fit_of_total_le (h : total weight l ≤ capacity) : fit weight capacity l = l :=
  fit_prefix.eq_of_length_le (prefix_fit_iff.mpr ⟨prefix_rfl,h⟩).length_le

lemma fit_append_singleton {a : α} (h : capacity < total weight (l++[a])) :
    fit weight capacity (l++[a]) = fit weight capacity l := by
  have hle : fit weight capacity (l++[a]) <+: fit weight capacity l := by
    refine prefix_fit_iff.mpr ⟨?_,total_fit_le⟩
    have hfit : fit weight capacity (l++[a]) <+: l++[a] := fit_prefix
    have htotal : total weight (fit weight capacity (l++[a])) ≤ capacity := total_fit_le
    rcases prefix_concat_iff.mp hfit with heq | hp
    · rw [heq] at htotal
      omega
    · exact hp
  have hge : fit weight capacity l <+: fit weight capacity (l++[a]) :=
    prefix_fit_iff.mpr ⟨ fit_prefix.trans (prefix_append l [a]),total_fit_le⟩
  exact hle.eq_of_length_le hge.length_le

lemma total_map {β : Type*} (weight' : β → ℕ) {f : α → β} (h : ∀ a ∈ l, weight' (f a) = weight a) :
    total weight' (l.map f) = total weight l := by
  rw [total,total,map_map]
  exact congrArg List.sum (map_congr_left h)

lemma fit_map {β : Type*} (weight' : β → ℕ) {f : α → β} (h : ∀ a ∈ l, weight' (f a) = weight a) :
    fit weight' capacity (l.map f) = (fit weight capacity l).map f := by
  induction l generalizing capacity with
  | nil => rfl
  | cons a l ih =>
    rw [map_cons,fit,fit,h a mem_cons_self,ih fun b hb => h b (mem_cons_of_mem a hb)]
    split <;> rfl

end TitanKV.Lru
