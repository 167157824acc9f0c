import TitanKV.Minikv.MergingOrder

/-! Whether `InternalKeyCompare` is an order. A key without room for a trailer is compared by its bytes, two longer
ones by their parts, and a triple may go round. -/
namespace TitanKV.Minikv
open Std

/-- The comparison is antisymmetric and transitive on these keys, and different keys are not equal to it. -/
def OrdersKeys (S : Set Bytes) : Prop :=
  TransCmp (fun a b : S => internalKeyCompare a b) ∧ LawfulEqCmp (fun a b : S => internalKeyCompare a b)

/-- Two long keys are not in the other order by their parts with a short one between their bytes. -/
def NoShortBetween (S : Set Bytes) : Prop :=
  ∀ a ∈ S, ∀ b ∈ S, ∀ s ∈ S, 8≤a.length → 8≤b.length → s.length<8 →
    trailerCompare a b = .lt → compare b s = .lt → compare s a ≠ .lt

section
variable {a b c s : Bytes} {S : Set Bytes}

lemma internalKeyCompare_of_short (h : a.length<8 ∨ b.length<8) : internalKeyCompare a b = compare a b :=
  if_pos h

lemma internalKeyCompare_swap (a b : Bytes) : internalKeyCompare a b = (internalKeyCompare b a).swap := by
  by_cases h : a.length<8 ∨ b.length<8
  · rw [internalKeyCompare_of_short h,internalKeyCompare_of_short h.symm]
    exact OrientedCmp.eq_swap
  · rw [internalKeyCompare_eq (by omega) (by omega),internalKeyCompare_eq (by omega) (by omega)]
    exact OrientedCmp.eq_swap

lemma eq_of_internalKeyCompare (h : internalKeyCompare a b = .eq) : a = b := by
  by_cases hshort : a.length<8 ∨ b.length<8
  · rw [internalKeyCompare_of_short hshort] at h
    exact LawfulEqCmp.eq_of_compare h
  · rw [internalKeyCompare_eq (by omega) (by omega)] at h
    exact eq_of_trailerCompare (by omega) (by omega) h

lemma internalKeyCompare_self (a : Bytes) : internalKeyCompare a a = .eq := by
  have hswap := internalKeyCompare_swap a a
  generalize internalKeyCompare a a = o at hswap ⊢
  revert o
  decide

lemma lt_of_isLE_of_ne (h : (internalKeyCompare a b).isLE) (hne : a ≠ b) : internalKeyCompare a b = .lt :=
  (Ordering.isLE_iff_eq_lt_or_eq_eq.mp h).resolve_right fun heq => hne (eq_of_internalKeyCompare heq)

/-- Two long keys and a short one do not go round. -/
lemma NoShortBetween.no_cycle (h : NoShortBetween S) (haS : a ∈ S) (hbS : b ∈ S) (hsS : s ∈ S) (ha : 8≤a.length)
    (hb : 8≤b.length) (hs : s.length<8) (hab : (internalKeyCompare a b).isLE) (hbs : (internalKeyCompare b s).isLE)
    (hsa : (internalKeyCompare s a).isLE) : False := by
  have hbs' := lt_of_isLE_of_ne hbs (ne_of_apply_ne List.length (by omega))
  have hsa' := lt_of_isLE_of_ne hsa (ne_of_apply_ne List.length (by omega))
  rw [internalKeyCompare_of_short (.inr hs)] at hbs'
  rw [internalKeyCompare_of_short (.inl hs)] at hsa'
  have hne : a ≠ b := by
    rintro rfl
    have hgt := OrientedCmp.gt_of_lt hbs'
    rw [hsa'] at hgt
    cases hgt
  exact h a haS b hbS s hsS ha hb hs (internalKeyCompare_eq ha hb ▸ lt_of_isLE_of_ne hab hne) hbs' hsa'

lemma NoShortBetween.trans (h : NoShortBetween S) (haS : a ∈ S) (hbS : b ∈ S) (hcS : c ∈ S)
    (hab : (internalKeyCompare a b).isLE) (hbc : (internalKeyCompare b c).isLE) : (internalKeyCompare a c).isLE := by
  by_contra hac
  have hca : (internalKeyCompare c a).isLE := by
    rw [internalKeyCompare_swap c a]
    generalize internalKeyCompare a c = o at hac ⊢
    revert o
    decide
  -- One short key among the three leaves one pair to the order of the parts, wherever in the cycle it stands.
  rcases lt_or_ge a.length 8 with ha | ha <;> rcases lt_or_ge b.length 8 with hb | hb <;>
    rcases lt_or_ge c.length 8 with hc | hc
  case inl.inr.inr => exact h.no_cycle hbS hcS haS hb hc ha hbc hca hab
  case inr.inl.inr => exact h.no_cycle hcS haS hbS hc ha hb hca hab hbc
  case inr.inr.inl => exact h.no_cycle haS hbS hcS ha hb hc hab hbc hca
  case inr.inr.inr =>
    rw [internalKeyCompare_eq ha hb] at hab
    rw [internalKeyCompare_eq hb hc] at hbc
    rw [internalKeyCompare_eq ha hc] at hac
    exact hac (TransCmp.isLE_trans hab hbc)
  all_goals
    rw [internalKeyCompare_of_short (by omega)] at hab hbc hac
    exact hac (TransCmp.isLE_trans hab hbc)

end

theorem ordersKeys_iff (S : Set Bytes) : OrdersKeys S ↔ NoShortBetween S := by
  constructor
  · rintro ⟨htrans,-⟩ a ha b hb s hs hla hlb hls hab hbs hsa
    rw [← internalKeyCompare_eq hla hlb] at hab
    rw [← internalKeyCompare_of_short (.inr hls)] at hbs
    have has := htrans.isLE_trans (a := ⟨a,ha⟩) (b := ⟨b,hb⟩) (c := ⟨s,hs⟩) (by simp [hab]) (by simp [hbs])
    rw [internalKeyCompare_of_short (.inr hls),OrientedCmp.gt_of_lt hsa] at has
    exact nomatch has
  · intro h
    have htrans : TransCmp (fun a b : S => internalKeyCompare a b) :=
      { eq_swap := internalKeyCompare_swap _ _
        isLE_trans := fun {a b c} hab hbc => h.trans a.2 b.2 c.2 hab hbc }
    exact ⟨htrans,
      { compare_self := internalKeyCompare_self _
        eq_of_compare := fun heq => Subtype.ext (eq_of_internalKeyCompare heq) }⟩

/-- The values of `a` and of a key that goes on with a zero byte, and a target of two bytes. -/
theorem not_ordersKeys_univ : ¬OrdersKeys Set.univ := by
  rintro ⟨htrans,-⟩
  have hle := htrans.isLE_trans (a := ⟨InternalKey.encode ⟨[97],7,.value⟩,trivial⟩)
    (b := ⟨InternalKey.encode ⟨[97,0],7,.value⟩,trivial⟩) (c := ⟨[97,1],trivial⟩) (by decide) (by decide)
  revert hle
  decide

end TitanKV.Minikv
