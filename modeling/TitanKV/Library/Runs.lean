import Mathlib.Tactic

/-! Runs of a transition system whose steps may be impossible, and the rule for invariants
that hold as long as every step meets a condition. -/
namespace TitanKV.Runs
open List
variable {σ ε : Type*} (step : σ → ε → Option σ)

def run (s : σ) : List ε → Option σ
  | [] => some s
  | e::es => (step s e).bind fun s' => run s' es

/-- Every step of the run is taken in a state where the condition holds. -/
def Meets (C : σ → ε → Prop) (s : σ) : List ε → Prop
  | [] => True
  | e::es => C s e ∧ ∀ s', step s e = some s' → Meets C s' es

instance decidableMeets (C : σ → ε → Prop) [∀ s e, Decidable (C s e)] :
    ∀ (s : σ) (es : List ε), Decidable (Meets step C s es)
  | _,[] => .isTrue trivial
  | s,e::es =>
    have : Decidable (∀ s', step s e = some s' → Meets step C s' es) :=
      match h : step s e with
      | none => .isTrue fun _ ht => by cases ht
      | some t =>
        have := decidableMeets C t es
        decidable_of_iff (Meets step C t es) ⟨fun ht _ hs => Option.some.inj hs ▸ ht,fun ht => ht t rfl⟩
    inferInstanceAs (Decidable (_ ∧ _))

variable {step} {C : σ → ε → Prop} {Inv : σ → Prop} {s s' : σ}

theorem run_append (es more : List ε) : run step s (es++more) = (run step s es).bind (run step · more) := by
  induction es generalizing s with
  | nil => rfl
  | cons e es ih =>
    simp only [cons_append,run]
    cases step s e with
    | none => rfl
    | some t => exact ih

variable {es : List ε}

theorem meets_of_forall (h : ∀ e ∈ es, ∀ s, C s e) : Meets step C s es := by
  induction es generalizing s with
  | nil => trivial
  | cons e es ih => exact ⟨h e (by simp) s,fun _ _ => ih fun e he => h e (by simp [he])⟩

variable {D : σ → ε → Prop}

theorem Meets.and (h : Meets step C s es) (h' : Meets step D s es) :
    Meets step (fun s e => C s e ∧ D s e) s es := by
  induction es generalizing s with
  | nil => trivial
  | cons e es ih => exact ⟨⟨h.1,h'.1⟩,fun t ht => ih (h.2 t ht) (h'.2 t ht)⟩

/-- Two conditions that agree wherever an invariant holds, which the first of them keeps up, are met by the same
runs. -/
theorem meets_iff (hiff : ∀ e ∈ es, ∀ s, Inv s → (C s e ↔ D s e))
    (hkeep : ∀ e ∈ es, ∀ s s', Inv s → C s e → step s e = some s' → Inv s') (h : Inv s) :
    Meets step C s es ↔ Meets step D s es := by
  induction es generalizing s with
  | nil => exact Iff.rfl
  | cons e es ih =>
    have hrest {t : σ} (ht : Inv t) := ih (fun e he => hiff e (mem_cons_of_mem _ he))
      (fun e he => hkeep e (mem_cons_of_mem _ he)) ht
    constructor
    · rintro ⟨hC,hmeets⟩
      refine ⟨(hiff e mem_cons_self s h).mp hC,fun t ht => ?_⟩
      exact (hrest (hkeep e mem_cons_self s t h hC ht)).mp (hmeets t ht)
    · rintro ⟨hD,hmeets⟩
      have hC := (hiff e mem_cons_self s h).mpr hD
      exact ⟨hC,fun t ht => (hrest (hkeep e mem_cons_self s t h hC ht)).mpr (hmeets t ht)⟩

/-- A property that every admissible step keeps holds in every state a run reaches. -/
theorem invariant (hstep : ∀ s e s', Inv s → C s e → step s e = some s' → Inv s')
    (hmeets : Meets step C s es) (hrun : run step s es = some s') (h : Inv s) : Inv s' := by
  induction es generalizing s with
  | nil =>
    cases hrun
    exact h
  | cons e es ih =>
    obtain ⟨t,ht,hrest⟩ := Option.bind_eq_some_iff.mp hrun
    exact ih (hmeets.2 t ht) hrest (hstep s e t h hmeets.1 ht)

/-- What follows from an invariant and the condition of a step holds at every step of the run. -/
theorem Meets.imp (hmeets : Meets step C s es) (hstep : ∀ s e s', Inv s → C s e → step s e = some s' → Inv s')
    (himp : ∀ s e, Inv s → C s e → D s e) (h : Inv s) :
    Meets step D s es := by
  induction es generalizing s with
  | nil => trivial
  | cons e es ih =>
    obtain ⟨hC,hrest⟩ := hmeets
    exact ⟨himp s e h hC,fun t ht => ih (hrest t ht) (hstep s e t h hC ht)⟩

end TitanKV.Runs
