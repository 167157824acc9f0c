import Mathlib.Tactic

/-! How the chunker cuts a long section of a document into windows. -/
namespace TitanKV.Services.Rag
open List

/-- Where the windows of `slideWindow` begin and end, counted in runes. -/
def windowsFrom (runes step size : ℕ) : ℕ → ℕ → List (ℕ × ℕ)
  | 0,_ => []
  | fuel+1,i =>
    if i<runes then
      let j := min (i+size*2) runes
      (i,j)::if j = runes then [] else windowsFrom runes step size fuel (i+step)
    else []

/-- A positive step takes the loop past the last rune in at most as many rounds as there are runes. -/
def windows (runes size overlap : ℕ) : List (ℕ × ℕ) :=
  windowsFrom runes (if size ≤ overlap then size else size-overlap) size runes 0

/-- Two windows in a row that come before the last one have `size` tokens each, `overlap` of them in common. -/
def OverlapAsConfigured (runes size overlap : ℕ) : Prop :=
  overlap<size → size*2<runes → ∀ a b, [a,b] <:+: (windows runes size overlap).dropLast →
    a.2-a.1 = size*2 ∧ b.2-b.1 = size*2 ∧ a.2-b.1 = overlap*2

/-- The step is counted in runes, so that windows share `size+overlap` of them: there may be no window between
the first and the last one. -/
theorem overlapAsConfigured_iff (runes size overlap : ℕ) : OverlapAsConfigured runes size overlap ↔
    (overlap<size → size*2<runes → runes ≤ size-overlap+size*2) := by
  refine forall₂_congr fun hlt hlong => ?_
  obtain ⟨n,rfl⟩ : ∃ n, runes = n+3 := ⟨runes-3,by omega⟩
  have hstep : windows (n+3) size overlap = (0,size*2)::windowsFrom (n+3) (size-overlap) size (n+2)
      (size-overlap) := by
    rw [windows,if_neg (by omega),windowsFrom,if_pos (by omega)]
    simp only [zero_add,min_eq_left hlong.le,if_neg hlong.ne]
  rw [hstep,windowsFrom,if_pos (by omega)]
  by_cases hthird : size-overlap+size*2<n+3
  · rw [windowsFrom,if_pos (by omega)]
    simp only [min_eq_left hthird.le,if_neg hthird.ne]
    refine iff_of_false (fun hshare => ?_) (by omega)
    have := (hshare (0,size*2) (size-overlap,size-overlap+size*2) (infix_append [] [_,_] _)).2.2
    omega
  · simp only [min_eq_right (not_lt.mp hthird),if_true,dropLast_cons_cons,dropLast_singleton]
    exact iff_of_true (fun a b hin => absurd hin.length_le (by simp)) (by omega)

/-- Windows of two tokens that should share one: the first two, of four runes each, have three in common. -/
theorem windows_share_more : ¬OverlapAsConfigured 7 2 1 := by
  intro h
  have hshare := (h (by decide) (by decide) (0,4) (1,5) ⟨[],[(2,6)],by decide⟩).2.2
  exact absurd hshare (by decide)

end TitanKV.Services.Rag
