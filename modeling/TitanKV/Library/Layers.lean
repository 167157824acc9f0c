import Mathlib.Tactic

/-! Layers of partial maps searched from the newest to the oldest. The list is in order of
age, oldest first; the newest layer that knows a key decides. -/
namespace TitanKV.Layers
variable {K V : Type*}

def overlay (layers : List (K → Option V)) (k : K) : Option V :=
  layers.reverse.findSome? fun layer => layer k

/-- Newer layers hide older ones. -/
theorem overlay_append (old new : List (K → Option V)) (k : K) :
    overlay (old++new) k = (overlay new k).or (overlay old k) := by
  simp [overlay,List.findSome?_append]

variable (layer : K → Option V)

@[simp] theorem overlay_singleton (k : K) : overlay [layer] k = layer k := by
  cases h : layer k <;> simp [overlay,h]

theorem overlay_cons (layers : List (K → Option V)) (k : K) :
    overlay (layer::layers) k = (overlay layers k).or (layer k) := by
  have h := overlay_append [layer] layers k
  simpa using h

theorem overlay_eq_none_iff {layers : List (K → Option V)} {k : K} :
    overlay layers k = none ↔ ∀ layer ∈ layers, layer k = none := by
  simp [overlay,List.findSome?_eq_none_iff]

theorem overlay_flatten (groups : List (List (K → Option V))) (k : K) :
    overlay groups.flatten k = overlay (groups.map overlay) k := by
  induction groups with
  | nil => rfl
  | cons group groups ih => rw [List.flatten_cons,overlay_append,List.map_cons,overlay_cons,ih]

theorem findSome?_congr {α β : Type*} {R : α → β → Prop} {f : α → Option V} {g : β → Option V}
    {as : List α} {bs : List β} (h : List.Forall₂ R as bs) (hR : ∀ a b, R a b → f a = g b) :
    as.findSome? f = bs.findSome? g := by
  induction h with
  | nil => rfl
  | cons hab _ ih => rw [List.findSome?_cons,List.findSome?_cons,ih,hR _ _ hab]

section Search
variable {α β : Type*}

lemma findSome?_flatMap (f : α → List β) (g : β → Option V) (l : List α) :
    (l.flatMap f).findSome? g = l.findSome? fun a => (f a).findSome? g := by
  induction l with
  | nil => rfl
  | cons a l ih =>
    rw [List.flatMap_cons,List.findSome?_append,List.findSome?_cons,ih]
    cases (f a).findSome? g <;> rfl

lemma findSome?_filterMap (f : α → Option β) (g : β → Option V) (l : List α) :
    (l.filterMap f).findSome? g = l.findSome? fun a => (f a).bind g := by
  induction l with
  | nil => rfl
  | cons a l ih =>
    rw [List.filterMap_cons,List.findSome?_cons]
    cases f a with
    | none => exact ih
    | some b => rw [List.findSome?_cons,ih]; rfl

end Search
end TitanKV.Layers
