import Mathlib.Tactic

/-! The first place at which a text occurs in another one. -/
namespace TitanKV.Searching
open List Option
variable {β : Type*} [DecidableEq β]

def find (pat : List β) : List β → Option ℕ
  | [] => if pat = [] then some 0 else none
  | x::s => if pat <+: x::s then some 0 else (find pat s).map (·+1)

def findFrom (pat s : List β) (start : ℕ) : Option ℕ := (find pat (s.drop start)).map (·+start)

variable {pat s t : List β} {i : ℕ}

theorem find_eq_some_iff : find pat s = some i ↔ i ≤ s.length ∧ pat <+: s.drop i ∧ ∀ j < i, ¬pat <+: s.drop j := by
  induction s generalizing i with
  | nil =>
    simp only [find,ite_none_right_eq_some,some.injEq,length_nil,Nat.le_zero,drop_nil,prefix_nil]
    constructor
    · rintro ⟨rfl,rfl⟩
      simp
    · rintro ⟨rfl,rfl,-⟩
      simp
  | cons x s ih =>
    unfold find
    split_ifs with hx
    · constructor
      · rintro ⟨⟩
        exact ⟨Nat.zero_le _,hx,by simp⟩
      · rintro ⟨-,-,hfirst⟩
        cases i with
        | zero => rfl
        | succ i => exact absurd hx (hfirst 0 (by simp))
    · simp only [map_eq_some_iff,ih]
      constructor
      · rintro ⟨i,⟨hle,hpat,hfirst⟩,rfl⟩
        refine ⟨by simpa using hle,by simpa using hpat,fun j hj => ?_⟩
        cases j with
        | zero => exact hx
        | succ j => exact hfirst j (by omega)
      · rintro ⟨hle,hpat,hfirst⟩
        cases i with
        | zero => exact absurd hpat hx
        | succ i => exact ⟨i,⟨by simpa using hle,by simpa using hpat,fun j hj => hfirst (j+1) (by omega)⟩,rfl⟩

lemma find_eq_some_zero (h : pat <+: s) : find pat s = some 0 := find_eq_some_iff.mpr ⟨Nat.zero_le _,h,by simp⟩

theorem find_eq_none_iff : find pat s = none ↔ ¬pat <:+: s := by
  induction s with
  | nil => simp [find]
  | cons x s ih =>
    unfold find
    split_ifs with hx
    · simp [hx.isInfix]
    · rw [map_eq_none_iff,ih,infix_cons_iff]
      simp [hx]

/-- What was found stays when more text follows. -/
theorem find_append (h : find pat s = some i) (t : List β) : find pat (s++t) = some i := by
  obtain ⟨hle,hpat,hfirst⟩ := find_eq_some_iff.mp h
  have hfits := hpat.length_le
  rw [length_drop] at hfits
  have hdrop {j : ℕ} (hj : j ≤ i) : (s++t).drop j = s.drop j ++ t := drop_append_of_le_length (hj.trans hle)
  refine find_eq_some_iff.mpr ⟨by simp; omega,?_,fun j hj hpat' => ?_⟩
  · rw [hdrop le_rfl]
    exact hpat.trans (prefix_append _ _)
  · rw [hdrop hj.le] at hpat'
    exact hfirst j hj (prefix_of_prefix_length_le hpat' (prefix_append _ _) (by rw [length_drop]; omega))

lemma take_of_find (h : find pat s = some i) : s.take (i+pat.length) = s.take i ++ pat := by
  have hpat := prefix_iff_eq_take.mp (find_eq_some_iff.mp h).2.1
  rw [take_add,← hpat]

lemma add_length_le_of_find (h : find pat s = some i) : i+pat.length ≤ s.length := by
  obtain ⟨hle,hpat,-⟩ := find_eq_some_iff.mp h
  have hfits := hpat.length_le
  rw [length_drop] at hfits
  omega

omit [DecidableEq β] in
/-- A text cannot occur across a letter that it does not have. -/
theorem infix_append_cons_iff {x : β} (hx : x ∉ pat) : pat <:+: s ++ x::t ↔ pat <:+: s ∨ pat <:+: t := by
  constructor
  · rintro ⟨l,r,heq⟩
    obtain ⟨s',rfl,-⟩ | ⟨c,hc,ht⟩ := append_eq_append_iff.mp heq
    · exact Or.inl ⟨l,s',rfl⟩
    · cases c with
      | nil => exact Or.inl ⟨l,[],by simpa using hc⟩
      | cons y c =>
        obtain ⟨rfl,rfl⟩ := cons.inj ht
        obtain ⟨s',rfl,rfl⟩ | ⟨d,rfl,hd⟩ := append_eq_append_iff.mp hc
        · exact absurd (mem_append_right s' mem_cons_self) hx
        · cases d with
          | nil => exact absurd (hd ▸ mem_cons_self : x ∈ [] ++ pat) hx
          | cons z d =>
            obtain ⟨rfl,rfl⟩ := cons.inj hd
            exact Or.inr ⟨d,r,rfl⟩
  · rintro (h | h)
    · exact h.trans (prefix_append _ _).isInfix
    · exact h.trans ((suffix_cons x t).trans (suffix_append s _)).isInfix

theorem find_skip {x : β} (hx : x ∉ s) (pat t : List β) :
    find (x::pat) (s++t) = (find (x::pat) t).map (·+s.length) := by
  induction s with
  | nil => simp
  | cons y s ih =>
    have hne : x ≠ y := fun h => hx (h ▸ mem_cons_self)
    rw [cons_append,find,if_neg (fun h => hne (cons_prefix_cons.mp h).1),ih fun h => hx (mem_cons_of_mem _ h),
      Option.map_map]
    congr

theorem find_cons_append {x : β} (hx : x ∉ s) (pat t : List β) :
    find (x::pat) (s++(x::pat ++ t)) = some s.length := by
  rw [find_skip hx,find_eq_some_zero (prefix_append _ _)]
  simp

/-- The first place of a letter, with what stands in front of it and behind it. -/
theorem find_singleton (x : β) (s : List β) :
    (find [x] s).elim s s.take = s.takeWhile (· ≠ x) ∧
      (find [x] s).elim [] (fun i => s.drop (i+1)) = (s.dropWhile (· ≠ x)).tail := by
  induction s with
  | nil => simp [find]
  | cons y s ih =>
    by_cases hy : y = x
    · subst hy
      simp [find]
    · have hne : ¬[x] <+: y::s := fun h => hy (cons_prefix_cons.mp h).1.symm
      rw [find,if_neg hne]
      cases hfind : find [x] s with
      | none | some i => simpa [hfind,hy] using ih

end TitanKV.Searching
