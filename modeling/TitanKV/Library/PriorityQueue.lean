import Mathlib.Tactic
import Mathlib.Data.List.Sort
import Mathlib.Data.Multiset.Basic

/-! Priority queues as their users know them: a bag of items, of which `top` is one that no other
precedes. Which of several such items it is, is left open. -/
namespace TitanKV

structure PriorityQueue (α : Type*) (le : α → α → Prop) where
  Carrier : Type*
  items : Carrier → Multiset α
  empty : Carrier
  push : α → Carrier → Carrier
  top : Carrier → Option α
  pop : Carrier → Carrier
  items_empty : items empty = 0
  items_push : ∀ a q, items (push a q) = a ::ₘ items q
  items_of_top_eq_none : ∀ q, top q = none → items q = 0
  items_of_top : ∀ q a, top q = some a → items q = a ::ₘ items (pop q)
  le_of_top : ∀ q a, top q = some a → ∀ b ∈ items q, le a b

namespace PriorityQueue
variable {α : Type*} {le : α → α → Prop} (Q : PriorityQueue α le)

lemma top_eq_none_iff {q : Q.Carrier} : Q.top q = none ↔ Q.items q = 0 := by
  refine ⟨Q.items_of_top_eq_none q,?_⟩
  intro hq
  cases htop : Q.top q with
  | none => rfl
  | some a =>
    have hitems := Q.items_of_top q a htop
    rw [hq] at hitems
    exact absurd hitems.symm (Multiset.cons_ne_zero)

/-- An order that decides more can be forgotten. -/
def coarsen {le' : α → α → Prop} (h : ∀ a b, le a b → le' a b) : PriorityQueue α le' :=
  { Q with le_of_top := fun q a htop b hb => h a b (Q.le_of_top q a htop b hb) }

def sorted (le : α → α → Prop) [DecidableRel le] [Std.Total le] [IsTrans α le] : PriorityQueue α le where
  Carrier := { l : List α // l.Pairwise le }
  items l := l.1
  empty := ⟨[],List.Pairwise.nil⟩
  push a l := ⟨l.1.orderedInsert le a,l.2.orderedInsert a l.1⟩
  top l := l.1.head?
  pop l := ⟨l.1.tail,l.2.tail⟩
  items_empty := rfl
  items_push a l := Multiset.coe_eq_coe.mpr (List.perm_orderedInsert le a l.1)
  items_of_top_eq_none := by
    rintro ⟨_|⟨a,l⟩,h⟩ htop
    · rfl
    · cases htop
  items_of_top := by
    rintro ⟨_|⟨a,l⟩,h⟩ b htop
    · cases htop
    · obtain rfl := Option.some.inj htop
      rfl
  le_of_top := by
    rintro ⟨_|⟨a,l⟩,h⟩ b htop
    · cases htop
    · obtain rfl := Option.some.inj htop
      intro b hb
      rcases List.mem_cons.mp hb with rfl | hb
      · exact (Std.Total.total b b).elim id id
      · exact (List.pairwise_cons.mp h).1 b hb

end PriorityQueue
end TitanKV
