import TitanKV.Library.Runs

/-! The rate limiter of the gateway: the Lua script that takes a token out of a bucket in Redis, and the life of the
key that holds the bucket. The arithmetic is exact. Every gateway sends the time of its own clock along; Redis has a
clock of its own, by which keys expire. -/
namespace TitanKV.Gateway
open Runs

structure Bucket where
  tokens : ℚ
  ts : ℤ
  deriving DecidableEq,Repr

/-- The tokens that the script works with, on what `HMGET` finds. -/
def refilled (capacity rate : ℚ) (now : ℤ) (stored : Option Bucket) : ℚ :=
  let tokens := (stored.map Bucket.tokens).getD capacity
  let ts := (stored.map Bucket.ts).getD now
  let delta := max 0 (now-ts)
  min capacity (tokens+delta*rate)

def ratelimitLua (capacity rate : ℚ) (now : ℤ) (requested : ℚ) (stored : Option Bucket) : Bool × Bucket :=
  let tokens := refilled capacity rate now stored
  if requested≤tokens then (true,⟨tokens-requested,now⟩) else (false,⟨tokens,now⟩)

/-- The seconds that `EXPIRE` gives the key. -/
def ttl (capacity rate : ℚ) : ℤ := ⌈capacity/rate⌉*2

/-- The bucket as it was written last, and the millisecond at which its key expires. -/
structure Key where
  bucket : Bucket
  expiry : ℤ
  deriving DecidableEq,Repr

/-- Redis, as far as one key goes. -/
structure Limiter where
  clock : ℤ
  key : Option Key
  deriving DecidableEq,Repr

/-- A request: the time of its gateway, and the milliseconds that Redis counts since the last request. -/
structure Execution where
  now : ℤ
  elapsed : ℕ
  deriving DecidableEq,Repr

namespace Limiter

def empty : Limiter := ⟨0,none⟩

def expired (k : Key) (clock : ℤ) : Prop := k.expiry≤clock

instance (k : Key) (clock : ℤ) : Decidable (expired k clock) := inferInstanceAs (Decidable (_≤_))

def stored (l : Limiter) (clock : ℤ) : Option Bucket :=
  l.key.bind fun k => if expired k clock then none else some k.bucket

def execute (capacity rate : ℚ) (l : Limiter) (e : Execution) : Bool × Limiter :=
  let clock := l.clock+e.elapsed
  let r := ratelimitLua capacity rate e.now 1 (l.stored clock)
  (r.1,⟨clock,some ⟨r.2,clock+ttl capacity rate*1000⟩⟩)

def step (capacity rate : ℚ) (l : Limiter) (e : Execution) : Option Limiter := some (l.execute capacity rate e).2

def allowed (capacity rate : ℚ) (l : Limiter) : List Execution → ℕ
  | [] => 0
  | e::es => (l.execute capacity rate e).1.toNat+allowed capacity rate (l.execute capacity rate e).2 es

end Limiter

/-- The clock of the gateway is not behind the time that was written last, and if the key has expired, the bucket
would be full again. -/
def Limiter.InStep (capacity rate : ℚ) (l : Limiter) (e : Execution) : Prop :=
  ∀ k ∈ l.key, k.bucket.ts≤e.now ∧
    (Limiter.expired k (l.clock+e.elapsed) → capacity ≤ k.bucket.tokens+(e.now-k.bucket.ts)*rate)

instance (capacity rate : ℚ) (l : Limiter) (e : Execution) : Decidable (l.InStep capacity rate e) :=
  inferInstanceAs (Decidable (∀ k ∈ l.key, _ ∧ (_ → _)))

section Script
variable {capacity rate : ℚ} {now : ℤ} {stored : Option Bucket}

lemma refilled_le_capacity : refilled capacity rate now stored ≤ capacity := min_le_left _ _

lemma refilled_nonneg (hcapacity : 0<capacity) (hrate : 0<rate) (hstored : ∀ b ∈ stored, 0≤b.tokens) :
    0 ≤ refilled capacity rate now stored := by
  have hdelta : (0 : ℚ)≤(max 0 (now-(stored.map Bucket.ts).getD now) : ℤ) := by exact_mod_cast le_max_left 0 _
  have htokens : 0 ≤ (stored.map Bucket.tokens).getD capacity := by
    cases stored with
    | none => exact hcapacity.le
    | some b => exact hstored b rfl
  exact le_min hcapacity.le (add_nonneg htokens (mul_nonneg hdelta hrate.le))

@[simp] lemma refilled_none : refilled capacity rate now none = capacity := by
  simp [refilled]

lemma refilled_some_le {b : Bucket} (hts : b.ts≤now) :
    refilled capacity rate now (some b) ≤ b.tokens+(now-b.ts)*rate := by
  have hdelta : max 0 (now-b.ts) = now-b.ts := max_eq_right (by omega)
  simp [refilled,hdelta]

lemma ts_ratelimitLua : (ratelimitLua capacity rate now 1 stored).2.ts = now := by
  unfold ratelimitLua
  dsimp only
  split <;> rfl

lemma tokens_add_ratelimitLua :
    (ratelimitLua capacity rate now 1 stored).2.tokens+((ratelimitLua capacity rate now 1 stored).1.toNat : ℚ) =
      refilled capacity rate now stored := by
  unfold ratelimitLua
  dsimp only
  split <;> simp

lemma tokens_ratelimitLua_mem (hcapacity : 0<capacity) (hrate : 0<rate) (hstored : ∀ b ∈ stored, 0≤b.tokens) :
    0≤(ratelimitLua capacity rate now 1 stored).2.tokens ∧
      (ratelimitLua capacity rate now 1 stored).2.tokens≤capacity := by
  have hnonneg : 0 ≤ refilled capacity rate now stored := refilled_nonneg hcapacity hrate hstored
  have hle : refilled capacity rate now stored ≤ capacity := refilled_le_capacity
  unfold ratelimitLua
  dsimp only
  split
  · constructor <;> dsimp only <;> linarith
  · exact ⟨hnonneg,hle⟩

end Script

namespace Limiter
variable {capacity rate : ℚ} {l l' : Limiter} {es : List Execution}

def Filled (capacity : ℚ) (l : Limiter) : Prop := ∀ k ∈ l.key, 0≤k.bucket.tokens ∧ k.bucket.tokens≤capacity

lemma Filled.execute (hcapacity : 0<capacity) (hrate : 0<rate) (h : l.Filled capacity) (e : Execution) :
    (l.execute capacity rate e).2.Filled capacity := by
  intro k hk
  simp only [Limiter.execute,Option.mem_def,Option.some.injEq] at hk
  subst hk
  refine tokens_ratelimitLua_mem hcapacity hrate fun b hb => ?_
  obtain ⟨k,hk,hif⟩ := Option.bind_eq_some_iff.mp hb
  split at hif
  · cases hif
  · cases hif
    exact (h k hk).1

theorem filled_run (hcapacity : 0<capacity) (hrate : 0<rate) (hrun : run (step capacity rate) empty es = some l) :
    l.Filled capacity := by
  have htrue : Meets (step capacity rate) (fun _ _ => True) empty es := meets_of_forall fun _ _ _ => trivial
  refine invariant (fun l e l' hl _ hstep => ?_) htrue hrun (fun k hk => by cases hk)
  cases hstep
  exact hl.execute hcapacity hrate e

/-- In step, a request finds at most the tokens that were left and those that the time since then is worth. -/
lemma refilled_le_of_inStep {k : Key} (hk : l.key = some k) {e : Execution} (h : l.InStep capacity rate e) :
    refilled capacity rate e.now (l.stored (l.clock+e.elapsed)) ≤ k.bucket.tokens+(e.now-k.bucket.ts)*rate := by
  obtain ⟨hts,hfull⟩ := h k hk
  by_cases hexpired : expired k (l.clock+e.elapsed)
  · simpa [stored,hk,hexpired] using hfull hexpired
  · simpa [stored,hk,hexpired] using refilled_some_le hts

/-- From a stored bucket on, a run lets through at most its tokens and those of the time up to the largest one. -/
lemma allowed_le (hcapacity : 0<capacity) (hrate : 0<rate) {k : Key} (hk : l.key = some k)
    (hfilled : l.Filled capacity) (hmeets : Meets (step capacity rate) (InStep capacity rate) l es) {hi : ℤ}
    (hts : k.bucket.ts≤hi) (hhi : ∀ e ∈ es, e.now≤hi) :
    (l.allowed capacity rate es : ℚ) ≤ k.bucket.tokens+rate*(hi-k.bucket.ts) := by
  induction es generalizing l k with
  | nil =>
    have htokens := (hfilled k hk).1
    have htime : (k.bucket.ts : ℚ)≤hi := by exact_mod_cast hts
    have hworth : 0 ≤ rate*(hi-k.bucket.ts) := mul_nonneg hrate.le (by linarith)
    simpa [allowed] using add_nonneg htokens hworth
  | cons e es ih =>
    have hfound := refilled_le_of_inStep hk hmeets.1
    have hrest := ih (l := (l.execute capacity rate e).2) rfl (hfilled.execute hcapacity hrate e) (hmeets.2 _ rfl)
      (by simpa [ts_ratelimitLua] using hhi e (by simp)) (fun e' he' => hhi e' (by simp [he']))
    have htokens := @tokens_add_ratelimitLua capacity rate e.now (l.stored (l.clock+e.elapsed))
    simp only [ts_ratelimitLua] at hrest
    simp only [allowed,Nat.cast_add]
    simp only [execute] at hrest ⊢
    linarith

/-- The stored tokens stay within the bucket in every run. The number of requests let through stays within the bucket
and what the time between the smallest and the largest clock reading is worth, in every run whose requests are in
step. -/
theorem allowed_bounded (capacity rate : ℚ) (hcapacity : 0<capacity) (hrate : 0<rate) (es : List Execution) :
    (∀ l, run (step capacity rate) empty es = some l → l.Filled capacity) ∧
      (Meets (step capacity rate) (InStep capacity rate) empty es →
        ∀ hi ∈ (es.map Execution.now).max?, ∀ lo ∈ (es.map Execution.now).min?,
          (empty.allowed capacity rate es : ℚ) ≤ capacity+rate*(hi-lo)) := by
  refine ⟨fun l hrun => filled_run hcapacity hrate hrun,fun hmeets hi hhi lo hlo => ?_⟩
  have hlargest := (List.max?_eq_some_iff.mp hhi).2
  have hsmallest := (List.min?_eq_some_iff.mp hlo).2
  cases es with
  | nil => cases hhi
  | cons e es =>
    have hempty : empty.Filled capacity := fun k hk => by cases hk
    have hrest := allowed_le (l := (empty.execute capacity rate e).2) hcapacity hrate rfl
      (hempty.execute hcapacity hrate e)
      (hmeets.2 _ rfl) (by simpa [ts_ratelimitLua] using hlargest e.now (by simp))
      (fun e' he' => hlargest e'.now (by simp; exact .inr ⟨e',he',rfl⟩))
    have htokens := @tokens_add_ratelimitLua capacity rate e.now (empty.stored (empty.clock+e.elapsed))
    have hfound := @refilled_le_capacity capacity rate e.now (empty.stored (empty.clock+e.elapsed))
    have hfirst : (lo : ℚ)≤e.now := by exact_mod_cast hsmallest e.now (by simp)
    have hworth : rate*lo≤rate*e.now := mul_le_mul_of_nonneg_left hfirst hrate.le
    simp only [ts_ratelimitLua] at hrest
    simp only [allowed,Nat.cast_add]
    simp only [execute] at hrest ⊢
    linarith

/-- Three gateways in step: the second request comes after one second, the third after the key has expired. -/
theorem allowed_bounded_in_step :
    empty.allowed 1 1 [⟨0,0⟩,⟨1,1000⟩,⟨4,3000⟩] = 3 ∧ ((3 : ℕ) : ℚ) ≤ 1+1*((4 : ℤ)-(0 : ℤ)) := by
  have hallowed : empty.allowed 1 1 [⟨0,0⟩,⟨1,1000⟩,⟨4,3000⟩] = 3 := by decide +kernel
  exact ⟨hallowed,hallowed ▸ (allowed_bounded 1 1 (by norm_num) (by norm_num) [⟨0,0⟩,⟨1,1000⟩,⟨4,3000⟩]).2
    (by decide +kernel)
    4 (by decide) 0 (by decide)⟩

/-- A clock that is behind has the next second refilled again; and a key that expires while the clocks stand still is
refilled at once. Both runs let three requests through. -/
theorem allowed_exceeds :
    (1+1*(1-0) < (empty.allowed 1 1 [⟨0,0⟩,⟨1,0⟩,⟨0,0⟩,⟨1,0⟩] : ℚ)) ∧
      (1+1*(0-0) < (empty.allowed 1 1 [⟨0,0⟩,⟨0,2000⟩,⟨0,2000⟩] : ℚ)) := by
  decide +kernel

end Limiter
end TitanKV.Gateway
