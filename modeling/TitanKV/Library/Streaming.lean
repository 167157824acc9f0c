import TitanKV.Library.Parsing

/-! Parsing a stream that arrives in pieces. A reader keeps what the parser has not taken yet and
tries again when more input comes; if the parser never changes its mind, it takes the same items
however the stream is cut. -/
namespace TitanKV.Parsing
open List
variable {α β : Type*}

/-- What was read stays when more input arrives. -/
def Stable (p : List β → Option (α × List β)) : Prop :=
  ∀ s a rest, p s = some (a,rest) → ∀ t, p (s++t) = some (a,rest++t)

def remainderFuel (p : List β → Option (α × List β)) : ℕ → List β → List β
  | 0,s => s
  | n+1,s =>
    match p s with
    | none => s
    | some (_,rest) => remainderFuel p n rest

/-- What is left where the parser refuses to go on. -/
def remainder (p : List β → Option (α × List β)) (s : List β) : List β := remainderFuel p (s.length+1) s

variable {p : List β → Option (α × List β)}

lemma remainderFuel_of_lt (hp : Consumes p) {m n : ℕ} {s : List β} (hm : s.length < m) (hn : s.length<n) :
    remainderFuel p m s = remainderFuel p n s := by
  induction m generalizing n s with
  | zero => omega
  | succ m ih =>
    cases n with
    | zero => omega
    | succ n =>
      simp only [remainderFuel]
      cases hs : p s with
      | none => rfl
      | some item =>
        obtain ⟨a,rest⟩ := item
        have hlt := hp s a rest hs
        exact ih (by omega) (by omega)

theorem remainder_of_none {s : List β} (h : p s = none) : remainder p s = s := by
  simp [remainder,remainderFuel,h]

section
variable (hp : Consumes p)
include hp

theorem remainder_of_some {s rest : List β} {a : α} (h : p s = some (a,rest)) :
    remainder p s = remainder p rest := by
  have hlt := hp s a rest h
  rw [remainder,remainderFuel,h]
  exact remainderFuel_of_lt hp hlt (Nat.lt_succ_self _)

theorem remainder_flatMap {γ : Type*} (encode : γ → List β) (f : γ → α) (as : List γ) (s : List β)
    (h : ∀ a ∈ as, ∀ rest, p (encode a ++ rest) = some (f a,rest)) :
    remainder p (as.flatMap encode ++ s) = remainder p s := by
  induction as with
  | nil => rfl
  | cons a as ih =>
    have ha := h a (by simp) (as.flatMap encode ++ s)
    rw [flatMap_cons,append_assoc,remainder_of_some hp ha,ih fun b hb => h b (by simp [hb])]

/-- Induction along the items of a stream. -/
theorem many_induction {motive : List β → Prop} (stop : ∀ s, p s = none → motive s)
    (item : ∀ s a rest, p s = some (a,rest) → motive rest → motive s) (s : List β) : motive s := by
  induction hn : s.length using Nat.strong_induction_on generalizing s with
  | _ n ih =>
    cases h : p s with
    | none => exact stop s h
    | some r => exact item s r.1 r.2 h (ih r.2.length (by have := hp s r.1 r.2 h; omega) r.2 rfl)

lemma length_remainder_le (s : List β) : (remainder p s).length ≤ s.length := by
  induction s using many_induction hp with
  | stop s h => rw [remainder_of_none h]
  | item s a rest h ih =>
    rw [remainder_of_some hp h]
    exact ih.trans (hp s a rest h).le

/-- The parser takes up where it stopped. -/
theorem many_append (hs : Stable p) (s t : List β) :
    many p (s++t) = many p s ++ many p (remainder p s ++ t) := by
  induction s using many_induction hp with
  | stop s h => rw [many_of_none h,remainder_of_none h,nil_append]
  | item s a rest h ih =>
    rw [many_of_some hp (hs s a rest h t),many_of_some hp h,remainder_of_some hp h,ih,cons_append]

theorem remainder_append (hs : Stable p) (s t : List β) :
    remainder p (s++t) = remainder p (remainder p s ++ t) := by
  induction s using many_induction hp with
  | stop s h => rw [remainder_of_none h]
  | item s a rest h ih => rw [remainder_of_some hp (hs s a rest h t),remainder_of_some hp h,ih]

end

/-- The items are pieces of the stream that are recognised on their own. -/
def Cuts (p : List β → Option (List β × List β)) : Prop :=
  ∀ s a rest, p s = some (a,rest) → s = a++rest ∧ ∀ t, p (a++t) = some (a,t)

section Pieces
variable {p : List β → Option (List β × List β)}

lemma Cuts.stable (h : Cuts p) : Stable p := by
  intro s a rest hs t
  obtain ⟨rfl,hall⟩ := h s a rest hs
  rw [append_assoc]
  exact hall (rest++t)

theorem flatten_many_append (hp : Consumes p) (hc : Cuts p) (s : List β) :
    (many p s).flatten ++ remainder p s = s := by
  induction s using many_induction hp with
  | stop s h => rw [many_of_none h,remainder_of_none h]; rfl
  | item s a rest h ih =>
    rw [many_of_some hp h,remainder_of_some hp h,flatten_cons,append_assoc,ih]
    exact (hc s a rest h).1.symm

theorem remainder_flatten_append (hp : Consumes p) (hc : Cuts p) (s t : List β) :
    remainder p ((many p s).flatten++t) = remainder p t := by
  induction s using many_induction hp with
  | stop s h => rw [many_of_none h]; rfl
  | item s a rest h ih =>
    rw [many_of_some hp h,flatten_cons,append_assoc,remainder_of_some hp ((hc s a rest h).2 _),ih]

end Pieces
end TitanKV.Parsing
