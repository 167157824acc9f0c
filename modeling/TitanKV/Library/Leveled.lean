import Mathlib.Tactic

/-! Runs arranged in levels by age. `R a b` says that `a` is older than `b`. On a level the
runs come oldest first, and everything on a deeper level is older than everything above it. -/
namespace TitanKV
open List Function
variable {ρ : Type*} {R : ρ → ρ → Prop}

structure Leveled (R : ρ → ρ → Prop) (levels : ℕ → List ρ) : Prop where
  level : ∀ i, (levels i).Pairwise R
  deeper : ∀ i j, i<j → ∀ a ∈ levels j, ∀ b ∈ levels i, R a b

namespace Leveled
variable {levels : ℕ → List ρ}

theorem of_empty (h : ∀ i, levels i = []) : Leveled R levels := by
  refine ⟨fun i => by rw [h]; exact Pairwise.nil,?_⟩
  intro i j _ a ha
  rw [h] at ha
  cases ha

theorem clear (h : Leveled R levels) (l : ℕ) : Leveled R (Function.update levels l []) := by
  have hsub : ∀ i, ∀ a ∈ Function.update levels l [] i, a ∈ levels i := by
    intro i a ha
    by_cases hi : i = l
    · rw [hi,update_self] at ha
      cases ha
    · rwa [update_of_ne hi] at ha
  refine ⟨?_,fun i j hij a ha b hb => h.deeper i j hij a (hsub j a ha) b (hsub i b hb)⟩
  intro i
  by_cases hi : i = l
  · rw [hi,update_self]
    exact Pairwise.nil
  · rw [update_of_ne hi]
    exact h.level i

lemma mem_push {l i : ℕ} {r a : ρ} (ha : a ∈ Function.update levels l (levels l ++ [r]) i) :
    a ∈ levels i ∨ i = l ∧ a = r := by
  by_cases hi : i = l
  · subst hi
    rw [update_self] at ha
    rcases mem_append.mp ha with ha | ha
    · exact .inl ha
    · exact .inr ⟨rfl,mem_singleton.mp ha⟩
  · rw [update_of_ne hi] at ha
    exact .inl ha

/-- A run that is newer than its level and all deeper ones, and older than the shallower
ones, may be added at the end of the level. -/
theorem push (h : Leveled R levels) {l : ℕ} {r : ρ} (hold : ∀ i, l ≤ i → ∀ a ∈ levels i, R a r)
    (hnew : ∀ i, i<l → ∀ b ∈ levels i, R r b) :
    Leveled R (Function.update levels l (levels l ++ [r])) := by
  refine ⟨?_,?_⟩
  · intro i
    by_cases hi : i = l
    · subst hi
      rw [update_self]
      refine pairwise_append.mpr ⟨h.level i,pairwise_singleton _ _,?_⟩
      intro a ha b hb
      rw [mem_singleton] at hb
      subst hb
      exact hold i le_rfl a ha
    · rw [update_of_ne hi]
      exact h.level i
  · intro i j hij a ha b hb
    rcases mem_push ha with hold' | ⟨rfl,rfl⟩
    · rcases mem_push hb with hb | ⟨rfl,rfl⟩
      · exact h.deeper i j hij a hold' b hb
      · exact hold j hij.le a hold'
    · rcases mem_push hb with hb | ⟨rfl,-⟩
      · exact hnew i hij b hb
      · exact (lt_irrefl _ hij).elim

end Leveled
end TitanKV
