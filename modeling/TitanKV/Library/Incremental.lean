import Mathlib.Tactic

/-! A machine that takes what it can off the front of a stream and waits for more where it cannot go on. If a
decision is never taken back when more arrives, it does not matter how the stream is cut. -/
namespace TitanKV.Incremental
variable {σ ρ β : Type*}

/-- In a state the machine is done, or goes on in another state with the rest; `none` waits. -/
abbrev Machine (σ ρ β : Type*) := σ → List β → Option (ρ ⊕ σ × List β)

inductive Outcome (σ ρ β : Type*)
  | done (r : ρ)
  | waiting (s : σ) (rest : List β)
  deriving DecidableEq

def drive (m : Machine σ ρ β) : ℕ → σ → List β → Outcome σ ρ β
  | 0,s,b => .waiting s b
  | fuel+1,s,b =>
    match m s b with
    | none => .waiting s b
    | some (.inl r) => .done r
    | some (.inr (s',rest)) => drive m fuel s' rest

def run (m : Machine σ ρ β) (s : σ) (b : List β) : Outcome σ ρ β := drive m (b.length+1) s b

def Outcome.feed (m : Machine σ ρ β) (t : List β) : Outcome σ ρ β → Outcome σ ρ β
  | .done r => .done r
  | .waiting s rest => run m s (rest++t)

def Consumes (m : Machine σ ρ β) : Prop := ∀ s b s' rest, m s b = some (.inr (s',rest)) → rest.length<b.length

structure Stable (m : Machine σ ρ β) : Prop where
  done : ∀ s b r, m s b = some (.inl r) → ∀ t, m s (b++t) = some (.inl r)
  next : ∀ s b s' rest, m s b = some (.inr (s',rest)) → ∀ t, m s (b++t) = some (.inr (s',rest++t))

variable {m : Machine σ ρ β} {s s' : σ} {b rest : List β} {r : ρ}

lemma drive_of_lt (hm : Consumes m) {fuel fuel' : ℕ} (h : b.length<fuel) (h' : b.length<fuel') :
    drive m fuel s b = drive m fuel' s b := by
  induction fuel generalizing s b fuel' with
  | zero => omega
  | succ fuel ih =>
    cases fuel' with
    | zero => omega
    | succ fuel' =>
      unfold drive
      cases hstep : m s b with
      | none => rfl
      | some o =>
        cases o with
        | inl r => rfl
        | inr next =>
          have hlt := hm s b next.1 next.2 hstep
          exact ih (by omega) (by omega)

lemma run_of_none (h : m s b = none) : run m s b = .waiting s b := by simp [run,drive,h]

lemma run_of_done (h : m s b = some (.inl r)) : run m s b = .done r := by simp [run,drive,h]

lemma run_of_next (hm : Consumes m) (h : m s b = some (.inr (s',rest))) : run m s b = run m s' rest := by
  have hlt := hm s b s' rest h
  simp only [run,drive,h]
  exact drive_of_lt hm hlt (Nat.lt_succ_self _)

/-- Induction along the steps of the machine. -/
theorem run_induction (hm : Consumes m) {motive : σ → List β → Prop} (wait : ∀ s b, m s b = none → motive s b)
    (stop : ∀ s b r, m s b = some (.inl r) → motive s b)
    (next : ∀ s b s' rest, m s b = some (.inr (s',rest)) → motive s' rest → motive s b) (s : σ) (b : List β) :
    motive s b := by
  induction hn : b.length using Nat.strong_induction_on generalizing s b with
  | _ n ih =>
    cases h : m s b with
    | none => exact wait s b h
    | some o =>
      cases o with
      | inl r => exact stop s b r h
      | inr o => exact next s b o.1 o.2 h (ih o.2.length (hn ▸ hm s b o.1 o.2 h) o.1 o.2 rfl)

theorem run_append (hm : Consumes m) (hs : Stable m) (s : σ) (b t : List β) :
    run m s (b++t) = (run m s b).feed m t := by
  induction s,b using run_induction hm with
  | wait s b h => rw [run_of_none h]; rfl
  | stop s b r h => rw [run_of_done h,run_of_done (hs.done s b r h t)]; rfl
  | next s b s' rest h ih => rw [run_of_next hm h,run_of_next hm (hs.next s b s' rest h t),ih]

/-- A machine that is done became so in one of its steps. -/
theorem exists_of_done (hm : Consumes m) (h : run m s b = .done r) : ∃ s' b', m s' b' = some (.inl r) := by
  induction s,b using run_induction hm with
  | wait s b hw =>
    rw [run_of_none hw] at h
    cases h
  | stop s b r hd =>
    rw [run_of_done hd] at h
    cases h
    exact ⟨s,b,hd⟩
  | next s b s₁ rest₁ hn ih =>
    rw [run_of_next hm hn] at h
    exact ih h

/-- What every step keeps holds where the machine waits. -/
theorem of_waiting (hm : Consumes m) {P : σ → Prop}
    (hstep : ∀ s b s' rest, P s → m s b = some (.inr (s',rest)) → P s') (hP : P s)
    (h : run m s b = .waiting s' rest) : P s' := by
  induction s,b using run_induction hm with
  | wait s b hw =>
    rw [run_of_none hw] at h
    cases h
    exact hP
  | stop s b r hd =>
    rw [run_of_done hd] at h
    cases h
  | next s b s₁ rest₁ hn ih =>
    rw [run_of_next hm hn] at h
    exact ih (hstep s b s₁ rest₁ hP hn) h

end TitanKV.Incremental
