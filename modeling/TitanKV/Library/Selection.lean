import Mathlib.Tactic
import Mathlib.Data.List.Perm.Basic

/-! Selection of the best items of a list by their score: one round moves a best item of the list
to the front, `k` rounds leave the `k` best in front, best first. The ways of doing a round differ
in how they rearrange the others. -/
namespace TitanKV
open List
variable {α S : Type*} [LinearOrder S]

/-- One round: a best item of a list that is not empty, and the others. -/
structure Extraction (key : α → S) where
  take : α → List α → α × List α
  perm : ∀ x ys, List.Perm ((take x ys).1 :: (take x ys).2) (x::ys)
  best : ∀ x ys, ∀ y ∈ x::ys, key y ≤ key (take x ys).1

namespace Extraction

section Exchange
variable (key : α → S)

/-- The item in front is exchanged with every later one that is better. -/
def exchangeRound (x : α) : List α → α × List α
  | [] => (x,[])
  | y::ys =>
    if key x < key y then ((exchangeRound y ys).1,x::(exchangeRound y ys).2)
    else ((exchangeRound x ys).1,y::(exchangeRound x ys).2)

lemma exchangeRound_perm (x : α) (ys : List α) :
    List.Perm ((exchangeRound key x ys).1 :: (exchangeRound key x ys).2) (x::ys) := by
  induction ys generalizing x with
  | nil => exact Perm.refl _
  | cons y ys ih =>
    rw [exchangeRound]
    split
    · exact (Perm.swap x _ _).trans ((ih y).cons x)
    · exact ((Perm.swap y _ _).trans ((ih x).cons y)).trans (Perm.swap x y ys)

lemma le_exchangeRound (x : α) (ys : List α) : ∀ y ∈ x::ys, key y ≤ key (exchangeRound key x ys).1 := by
  induction ys generalizing x with
  | nil =>
    intro y hy
    rw [mem_singleton] at hy
    exact hy ▸ le_rfl
  | cons z ys ih =>
    intro y hy
    rw [exchangeRound]
    split
    · rename_i hlt
      rcases mem_cons.mp hy with rfl | hy
      · exact hlt.le.trans (ih z z mem_cons_self)
      · exact ih z y hy
    · rename_i hge
      rcases mem_cons.mp hy with rfl | hy
      · exact ih y y mem_cons_self
      · rcases mem_cons.mp hy with rfl | hy
        · exact (not_lt.mp hge).trans (ih x x mem_cons_self)
        · exact ih x y (mem_cons_of_mem x hy)

def exchange : Extraction key := ⟨exchangeRound key,exchangeRound_perm key,le_exchangeRound key⟩

end Exchange

section SwapFirstMax
variable (key : α → S)

/-- The scan for the first maximum: `i` is the position of the best item so far, `j` that of the
next one. -/
def maxPosition (i : ℕ) (best : α) (j : ℕ) : List α → ℕ × α
  | [] => (i,best)
  | y::ys => if key best < key y then maxPosition j y (j+1) ys else maxPosition i best (j+1) ys

lemma getElem?_maxPosition (l : List α) (i : ℕ) (best : α) (j : ℕ) (ys : List α) (hi : l[i]? = some best)
    (hys : ∀ n, ys[n]? = l[j+n]?) :
    l[(maxPosition key i best j ys).1]? = some (maxPosition key i best j ys).2 := by
  induction ys generalizing i best j with
  | nil => exact hi
  | cons y ys ih =>
    have hy : l[j]? = some y := (hys 0).symm
    have htail : ∀ n, ys[n]? = l[j+1+n]? := by
      intro n
      rw [Nat.add_right_comm]
      exact hys (n+1)
    rw [maxPosition]
    split
    · exact ih j y (j+1) hy htail
    · exact ih i best (j+1) hi htail

lemma le_maxPosition (i : ℕ) (best : α) (j : ℕ) (ys : List α) :
    ∀ y ∈ best::ys, key y ≤ key (maxPosition key i best j ys).2 := by
  induction ys generalizing i best j with
  | nil =>
    intro y hy
    rw [mem_singleton] at hy
    exact hy ▸ le_rfl
  | cons z ys ih =>
    intro y hy
    rw [maxPosition]
    split
    · rename_i hlt
      rcases mem_cons.mp hy with rfl | hy
      · exact hlt.le.trans (ih j z (j+1) z mem_cons_self)
      · exact ih j z (j+1) y hy
    · rename_i hge
      rcases mem_cons.mp hy with rfl | hy
      · exact ih i y (j+1) y mem_cons_self
      · rcases mem_cons.mp hy with rfl | hy
        · exact (not_lt.mp hge).trans (ih i best (j+1) best mem_cons_self)
        · exact ih i best (j+1) y (mem_cons_of_mem best hy)

/-- The first maximum and the item in front change places. -/
def swapRound (x : α) (ys : List α) : α × List α :=
  match (maxPosition key 0 x 1 ys).1 with
  | 0 => (x,ys)
  | i+1 => ys.swapAt i x

lemma swapRound_fst (x : α) (ys : List α) : (swapRound key x ys).1 = (maxPosition key 0 x 1 ys).2 := by
  have hget := getElem?_maxPosition key (x::ys) 0 x 1 ys rfl fun n => by rw [Nat.add_comm,getElem?_cons_succ]
  rw [swapRound]
  split
  · rename_i hpos
    rw [hpos] at hget
    exact Option.some.inj hget
  · rename_i i hpos
    rw [hpos,getElem?_cons_succ] at hget
    rw [List.swapAt,hget,Option.getD_some]

lemma swapRound_perm (x : α) (ys : List α) :
    List.Perm ((swapRound key x ys).1 :: (swapRound key x ys).2) (x::ys) := by
  rw [swapRound]
  split
  · exact Perm.refl _
  · exact ys.cons_uncurry_swapAt_perm_cons _ x

def swapFirstMax : Extraction key :=
  ⟨swapRound key,swapRound_perm key,fun x ys y hy => by
    rw [swapRound_fst]
    exact le_maxPosition key 0 x 1 ys y hy⟩

end SwapFirstMax

variable {key : α → S} (E : Extraction key)

/-- `k` rounds: the items selected, in the order of their selection, and those left. -/
def select : ℕ → List α → List α × List α
  | 0,l => ([],l)
  | _+1,[] => ([],[])
  | k+1,x::ys => ((E.take x ys).1 :: (select k (E.take x ys).2).1,(select k (E.take x ys).2).2)

theorem select_perm (k : ℕ) (l : List α) : List.Perm ((E.select k l).1++(E.select k l).2) l := by
  induction k generalizing l with
  | zero => exact Perm.refl _
  | succ k ih =>
    cases l with
    | nil => exact Perm.refl _
    | cons x ys => exact ((ih _).cons _).trans (E.perm x ys)

theorem length_select (k : ℕ) (l : List α) : (E.select k l).1.length = min k l.length := by
  induction k generalizing l with
  | zero => simp [select]
  | succ k ih =>
    cases l with
    | nil => simp [select]
    | cons x ys =>
      have hlength := (E.perm x ys).length_eq
      simp only [length_cons,Nat.add_right_cancel_iff] at hlength
      simp [select,ih,hlength]

theorem le_of_mem_select {k : ℕ} {l : List α} {a b : α} (ha : a ∈ (E.select k l).1) (hb : b ∈ (E.select k l).2) :
    key b ≤ key a := by
  induction k generalizing l with
  | zero => cases ha
  | succ k ih =>
    cases l with
    | nil => cases ha
    | cons x ys =>
      obtain rfl | ha := mem_cons.mp ha
      · have hrest : b ∈ (E.take x ys).2 := (E.select_perm k _).subset (mem_append_right _ hb)
        exact E.best x ys b ((E.perm x ys).subset (mem_cons_of_mem _ hrest))
      · exact ih ha hb

/-- The best item is selected first. -/
theorem select_pairwise (k : ℕ) (l : List α) : (E.select k l).1.Pairwise fun a b => key b ≤ key a := by
  induction k generalizing l with
  | zero => exact .nil
  | succ k ih =>
    cases l with
    | nil => exact .nil
    | cons x ys =>
      refine .cons (fun b hb => ?_) (ih _)
      have hrest : b ∈ (E.take x ys).2 := (E.select_perm k _).subset (mem_append_left _ hb)
      exact E.best x ys b ((E.perm x ys).subset (mem_cons_of_mem _ hrest))

end Extraction

section Descending
variable {key : α → S} {l l' : List α}

def descending (key : α → S) (l : List α) : List α := l.mergeSort fun a b => decide (key b ≤ key a)

lemma descending_perm (key : α → S) (l : List α) : List.Perm (descending key l) l := mergeSort_perm l _

lemma descending_pairwise (key : α → S) (l : List α) : (descending key l).Pairwise fun a b => key b ≤ key a := by
  have hsorted := @List.pairwise_mergeSort α (fun a b => decide (key b ≤ key a))
    (fun a b c hab hbc => decide_eq_true ((of_decide_eq_true hbc).trans (of_decide_eq_true hab)))
    (fun a b => by simpa using le_total (key b) (key a)) l
  exact hsorted.imp of_decide_eq_true

section
variable (hdistinct : (l.map key).Nodup)
include hdistinct

lemma eq_of_descending (hl : l.Pairwise fun a b => key b ≤ key a)
    (hl' : l'.Pairwise fun a b => key b ≤ key a) (hperm : List.Perm l l') : l = l' := by
  refine Perm.eq_of_pairwise (fun a b ha hb hab hba => ?_) hl hl' hperm
  exact inj_on_of_nodup_map hdistinct ha (hperm.symm.subset hb) (le_antisymm hba hab)

lemma nodup_map_descending : ((descending key l).map key).Nodup :=
  ((descending_perm key l).map key).nodup_iff.mpr hdistinct

lemma descending_eq_of_perm (hperm : List.Perm l l') : descending key l = descending key l' :=
  eq_of_descending (nodup_map_descending hdistinct) (descending_pairwise key l) (descending_pairwise key l')
    ((descending_perm key l).trans (hperm.trans (descending_perm key l').symm))

lemma filter_descending (p : α → Bool) :
    (descending key l).filter p = descending key (l.filter p) := by
  refine eq_of_descending ?_ ((descending_pairwise key l).filter p) (descending_pairwise key _)
    (((descending_perm key l).filter p).trans (descending_perm key _).symm)
  exact (nodup_map_descending hdistinct).sublist ((filter_sublist ..).map key)

end

/-- `k` rounds of any selection take the first `k` items of the descending order. -/
theorem Extraction.select_eq_take (E : Extraction key) (hdistinct : (l.map key).Nodup) (k : ℕ) :
    (E.select k l).1 = (descending key l).take k := by
  have hperm : List.Perm ((E.select k l).1 ++ descending key (E.select k l).2) l :=
    ((descending_perm key _).append_left _).trans (E.select_perm k l)
  have hpairwise : ((E.select k l).1 ++ descending key (E.select k l).2).Pairwise fun a b => key b ≤ key a :=
    pairwise_append.mpr ⟨E.select_pairwise k l,descending_pairwise key _,fun a ha b hb =>
      E.le_of_mem_select ha ((descending_perm key _).subset hb)⟩
  have heq : descending key l = (E.select k l).1 ++ descending key (E.select k l).2 :=
    eq_of_descending (nodup_map_descending hdistinct) (descending_pairwise key l) hpairwise
      ((descending_perm key l).trans hperm.symm)
  have hlength := E.length_select k l
  rw [heq]
  obtain hle | hle := le_total k l.length
  · rw [min_eq_left hle] at hlength
    rw [take_left' hlength]
  · have hrest := (E.select_perm k l).length_eq
    rw [length_append,hlength] at hrest
    have hnil : (E.select k l).2 = [] := length_eq_zero_iff.mp (by omega)
    rw [hnil,show descending key ([] : List α) = [] from mergeSort_nil,append_nil,take_of_length_le (by omega)]

end Descending

/-- Filtering behind a cut loses nothing of the first `k` items exactly if enough of them stand in front of it. -/
theorem take_filter_take_eq_iff (p : α → Bool) (l : List α) (n k : ℕ) :
    ((l.take n).filter p).take k = (l.filter p).take k ↔
      min k (l.filter p).length ≤ ((l.take n).filter p).length := by
  obtain ⟨rest,hrest⟩ : (l.take n).filter p <+: l.filter p := ( take_prefix n l).filter p
  rw [← hrest]
  constructor
  · intro h
    have hlength := congrArg length h
    simp only [length_take,length_append] at hlength ⊢
    omega
  · intro h
    rw [length_append] at h
    obtain hk | hk := le_or_gt k ((l.take n).filter p).length
    · rw [take_append_of_le_length hk]
    · have hnil : rest = [] := length_eq_zero_iff.mp (by omega)
      rw [hnil,append_nil]

end TitanKV
