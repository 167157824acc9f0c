import TitanKV.Library.Runs

/-! The upstreams of the proxy and the smooth weighted round robin that chooses one of them for a request. The
balancer has a current weight for every position of the list; an upstream that is down keeps the one it had. -/
namespace TitanKV.Skynet
open List Runs

structure Upstream where
  host : String
  port : ℤ
  weight : ℤ
  activeConnections : ℤ := 0
  healthy : Bool := true
  deriving DecidableEq,Repr

structure UpstreamManager where
  upstreams : List Upstream
  current : ℕ
  deriving DecidableEq,Repr

namespace UpstreamManager

def reload (upstreams : List Upstream) : UpstreamManager := ⟨upstreams,0⟩

def setHealthy (healthy : Bool) (mgr : UpstreamManager) (host : String) (port : ℤ) : UpstreamManager :=
  { mgr with
    upstreams := mgr.upstreams.map fun u =>
      if u.host = host ∧ u.port = port then { u with healthy := healthy } else u }

def markDown : UpstreamManager → String → ℤ → UpstreamManager := setHealthy false

def markUp : UpstreamManager → String → ℤ → UpstreamManager := setHealthy true

end UpstreamManager

/-- What the loop of `select` has found so far. The best index is -1 as long as there is none. -/
structure Candidate where
  totalWeight : ℤ
  bestWeight : ℤ
  bestIdx : Option ℕ
  deriving DecidableEq,Repr

def Candidate.start : Candidate := ⟨0,-1,none⟩

def Candidate.consider (c : Candidate) (i : ℕ) (weight current : ℤ) : Candidate :=
  if c.bestWeight<current then ⟨c.totalWeight+weight,current,some i⟩
    else { c with totalWeight := c.totalWeight+weight }

structure WeightedRoundRobinLB where
  mgr : UpstreamManager
  currentWeights : List ℤ
  deriving DecidableEq,Repr

def resize (n : ℕ) (ws : List ℤ) : List ℤ := ws.take n ++ replicate (n-ws.length) 0

namespace WeightedRoundRobinLB

def new (mgr : UpstreamManager) : WeightedRoundRobinLB := ⟨mgr,resize mgr.upstreams.length []⟩

def loop (i : ℕ) : List Upstream → List ℤ → Candidate → List ℤ × Candidate
  | u::us,w::ws,c =>
    if u.healthy then
      let r := loop (i+1) us ws (c.consider i u.weight (w+u.weight))
      ((w+u.weight)::r.1,r.2)
    else
      let r := loop (i+1) us ws c
      (w::r.1,r.2)
  | _,ws,c => (ws,c)

def weights (lb : WeightedRoundRobinLB) : List ℤ :=
  if lb.currentWeights.length = lb.mgr.upstreams.length then lb.currentWeights
  else resize lb.mgr.upstreams.length lb.currentWeights

/-- The weights that the loop has raised stay raised when it finds nothing. -/
def select (lb : WeightedRoundRobinLB) : Option Upstream × WeightedRoundRobinLB :=
  if lb.mgr.upstreams = [] then (none,lb)
  else
    let r := loop 0 lb.mgr.upstreams lb.weights .start
    match r.2.bestIdx with
    | none => (none,{ lb with currentWeights := r.1 })
    | some i => (lb.mgr.upstreams[i]?,{ lb with currentWeights := r.1.modify i (· - r.2.totalWeight) })

end WeightedRoundRobinLB

inductive BalancerCall
  | select
  | markDown (host : String) (port : ℤ)
  | markUp (host : String) (port : ℤ)
  | reload (upstreams : List Upstream)
  deriving DecidableEq,Repr

namespace WeightedRoundRobinLB

def step (lb : WeightedRoundRobinLB) : BalancerCall → Option WeightedRoundRobinLB
  | .select => some lb.select.2
  | .markDown host port => some { lb with mgr := lb.mgr.markDown host port }
  | .markUp host port => some { lb with mgr := lb.mgr.markUp host port }
  | .reload upstreams => some { lb with mgr := .reload upstreams }

end WeightedRoundRobinLB

/-- A healthy upstream is answered, and nothing only if there is none. -/
def Answers (upstreams : List Upstream) : Option Upstream → Prop
  | some u => u ∈ upstreams ∧ u.healthy = true
  | none => ∀ u ∈ upstreams, u.healthy = false

instance (upstreams : List Upstream) : (o : Option Upstream) → Decidable (Answers upstreams o)
  | some u => inferInstanceAs (Decidable (u ∈ upstreams ∧ u.healthy = true))
  | none => inferInstanceAs (Decidable (∀ u ∈ upstreams, u.healthy = false))

namespace WeightedRoundRobinLB
variable {lb : WeightedRoundRobinLB} {us : List Upstream} {ws : List ℤ} {c : Candidate} {i : ℕ}

/-- Some upstream is up whose current weight its own weight lifts to zero. -/
def Lifted (us : List Upstream) (ws : List ℤ) : Prop := ∃ p ∈ us.zip ws, p.1.healthy = true ∧ 0≤p.2+p.1.weight

instance (us : List Upstream) (ws : List ℤ) : Decidable (Lifted us ws) :=
  inferInstanceAs (Decidable (∃ p ∈ us.zip ws, p.1.healthy = true ∧ 0≤p.2+p.1.weight))

lemma length_weights (lb : WeightedRoundRobinLB) : lb.weights.length = lb.mgr.upstreams.length := by
  unfold weights resize
  split
  · assumption
  · simp
    omega

lemma bestIdx_loop_eq_none_iff : (loop i us ws c).2.bestIdx = none ↔
    c.bestIdx = none ∧ ∀ p ∈ us.zip ws, p.1.healthy = true → p.2+p.1.weight≤c.bestWeight := by
  induction us generalizing i ws c with
  | nil => simp [loop]
  | cons u us ih =>
    cases ws with
    | nil => simp [loop]
    | cons w ws =>
      by_cases hu : u.healthy = true
      · by_cases hlt : c.bestWeight<w+u.weight
        · simp [loop,hu,ih,Candidate.consider,hlt]
        · simp [loop,hu,ih,Candidate.consider,hlt,not_lt.mp hlt]
      · simp [loop,hu,ih]

lemma bestIdx_loop {k : ℕ} (h : (loop i us ws c).2.bestIdx = some k) :
    c.bestIdx = some k ∨ i≤k ∧ ∃ u, us[k-i]? = some u ∧ u.healthy = true := by
  induction us generalizing i ws c with
  | nil => exact .inl (by simpa [loop] using h)
  | cons u us ih =>
    cases ws with
    | nil => exact .inl (by simpa [loop] using h)
    | cons w ws =>
      have hlater (hle : i+1≤k) (u' : Upstream) (hu' : us[k-(i+1)]? = some u') : (u::us)[k-i]? = some u' := by
        simpa [show k-i = k-(i+1)+1 by omega] using hu'
      by_cases hu : u.healthy = true
      · simp only [loop,hu,if_true] at h
        obtain hc | ⟨hle,u',hu',hh⟩ := ih h
        · by_cases hlt : c.bestWeight<w+u.weight
          · simp only [Candidate.consider,hlt,if_true,Option.some.injEq] at hc
            subst hc
            exact .inr ⟨le_rfl,u,by simp,hu⟩
          · simp only [Candidate.consider,hlt,if_false] at hc
            exact .inl hc
        · exact .inr ⟨by omega,u',hlater hle u' hu',hh⟩
      · simp only [loop,hu] at h
        obtain hc | ⟨hle,u',hu',hh⟩ := ih h
        · exact .inl hc
        · exact .inr ⟨by omega,u',hlater hle u' hu',hh⟩

lemma exists_mem_zip {u : Upstream} (hu : u ∈ lb.mgr.upstreams) : ∃ w, (u,w) ∈ lb.mgr.upstreams.zip lb.weights := by
  obtain ⟨k,hk,rfl⟩ := getElem_of_mem hu
  have hw : k<lb.weights.length := by simpa [length_weights] using hk
  exact ⟨lb.weights[k],mem_iff_getElem.mpr ⟨k,by simp [hk,hw],by simp⟩⟩

/-- A selection is right exactly if no upstream is up or some current weight is lifted to zero. -/
theorem answers_select_iff : Answers lb.mgr.upstreams lb.select.1 ↔
    (∃ u ∈ lb.mgr.upstreams, u.healthy = true) → Lifted lb.mgr.upstreams lb.weights := by
  by_cases hnil : lb.mgr.upstreams = []
  · simp [select,hnil,Answers]
  · cases hbest : (loop 0 lb.mgr.upstreams lb.weights .start).2.bestIdx with
    | none =>
      have hlow := (bestIdx_loop_eq_none_iff.mp hbest).2
      have hselect : lb.select.1 = none := by simp [select,hnil,hbest]
      have hnot : ¬Lifted lb.mgr.upstreams lb.weights := by
        intro ⟨p,hp,hh,hlift⟩
        have := hlow p hp hh
        simp only [Candidate.start] at this
        omega
      simp [hselect,Answers,hnot]
    | some k =>
      obtain hc | ⟨-,u,hu,hh⟩ := bestIdx_loop hbest
      · cases hc
      · have hselect : lb.select.1 = some u := by simpa [select,hnil,hbest] using hu
        have hlift : Lifted lb.mgr.upstreams lb.weights := by
          by_contra hnot
          have hnone : (loop 0 lb.mgr.upstreams lb.weights .start).2.bestIdx = none := by
            refine bestIdx_loop_eq_none_iff.mpr ⟨rfl,fun p hp hhp => ?_⟩
            by_contra hgt
            exact hnot ⟨p,hp,hhp,by simp only [Candidate.start] at hgt; omega⟩
          simp [hbest] at hnone
        simp [hselect,Answers,hlift,mem_of_getElem? hu,hh]

section Balance

def healthySum (f : Upstream → ℤ → ℤ) (us : List Upstream) (ws : List ℤ) : ℤ :=
  ((us.zip ws).map fun p => if p.1.healthy then f p.1 p.2 else 0).sum

/-- All weights are positive, and the current weights of the upstreams that are up do not sum to a negative
number. -/
structure Balanced (lb : WeightedRoundRobinLB) : Prop where
  positive : ∀ u ∈ lb.mgr.upstreams, 1≤u.weight
  nonneg : 0 ≤ healthySum (fun _ w => w) lb.mgr.upstreams lb.weights

/-- The weight of every healthy upstream is added to its current weight and to the total. -/
lemma loop_spec : (loop i us ws c).1.length = ws.length ∧
    (loop i us ws c).2.totalWeight = c.totalWeight+healthySum (fun u _ => u.weight) us ws ∧
    healthySum (fun _ w => w) us (loop i us ws c).1 =
      healthySum (fun _ w => w) us ws+healthySum (fun u _ => u.weight) us ws := by
  induction us generalizing i ws c with
  | nil => simp [loop,healthySum]
  | cons u us ih =>
    cases ws with
    | nil => simp [loop,healthySum]
    | cons w ws =>
      simp only [healthySum] at ih
      by_cases hu : u.healthy = true
      · have htotal : (c.consider i u.weight (w+u.weight)).totalWeight = c.totalWeight+u.weight := by
          unfold Candidate.consider
          split <;> rfl
        simp [loop,hu,ih,htotal,healthySum]
        constructor <;> ring
      · simp [loop,hu,ih,healthySum]

lemma healthySum_modify {k : ℕ} {u : Upstream} {t : ℤ} (hu : us[k]? = some u) (hh : u.healthy = true)
    (hk : k<ws.length) :
    healthySum (fun _ w => w) us (ws.modify k (· - t)) = healthySum (fun _ w => w) us ws-t := by
  induction us generalizing k ws with
  | nil => simp at hu
  | cons v us ih =>
    cases ws with
    | nil => simp at hk
    | cons w ws =>
      cases k with
      | zero =>
        simp only [getElem?_cons_zero,Option.some.injEq] at hu
        subst hu
        simp [healthySum,hh]
        ring
      | succ k =>
        have hrest := ih (by simpa using hu) (by simpa using hk)
        simp only [healthySum] at hrest
        simp [healthySum,hrest]
        ring

/-- What a round adds to the weights and what it takes away cancel out. -/
lemma healthySum_select (hanswer : lb.select.1.isSome = true) :
    healthySum (fun _ w => w) lb.mgr.upstreams lb.select.2.weights = healthySum (fun _ w => w) lb.mgr.upstreams
      lb.weights := by
  by_cases hnil : lb.mgr.upstreams = []
  · simp [healthySum,hnil]
  · obtain ⟨hlength,htotal,hsum⟩ := @loop_spec lb.mgr.upstreams lb.weights .start 0
    cases hbest : (loop 0 lb.mgr.upstreams lb.weights .start).2.bestIdx with
    | none => simp [select,hnil,hbest] at hanswer
    | some k =>
      obtain hc | ⟨-,u,hu,hh⟩ := bestIdx_loop hbest
      · cases hc
      · rw [length_weights] at hlength
        rw [Nat.sub_zero] at hu
        have hk : k<(loop 0 lb.mgr.upstreams lb.weights .start).1.length :=
          hlength ▸ (List.getElem?_eq_some_iff.mp hu).1
        have hselect : lb.select.2 = ⟨lb.mgr,(loop 0 lb.mgr.upstreams lb.weights .start).1.modify k
            (· - (loop 0 lb.mgr.upstreams lb.weights .start).2.totalWeight)⟩ := by
          simp [select,hnil,hbest]
        have hweights : lb.select.2.weights = lb.select.2.currentWeights := if_pos (by simp [hselect,hlength])
        rw [hweights,hselect,healthySum_modify hu hh hk,hsum,htotal]
        simp [Candidate.start]

/-- Where no current weight is lifted to zero, those of the healthy upstreams are all negative. -/
lemma Balanced.lifted (h : lb.Balanced) (hup : ∃ u ∈ lb.mgr.upstreams, u.healthy = true) :
    Lifted lb.mgr.upstreams lb.weights := by
  obtain ⟨u,hu,hh⟩ := hup
  obtain ⟨w,hw⟩ := exists_mem_zip hu
  by_contra hnot
  have hneg : ∀ p ∈ lb.mgr.upstreams.zip lb.weights, p.1.healthy = true → p.2<0 := by
    intro p hp hup
    have := h.positive p.1 (of_mem_zip hp).1
    have : ¬0≤p.2+p.1.weight := fun hle => hnot ⟨p,hp,hup,hle⟩
    omega
  have hle : ∀ p ∈ lb.mgr.upstreams.zip lb.weights, (if p.1.healthy then p.2 else 0)≤0 := by
    intro p hp
    split_ifs with hup
    · exact (hneg p hp hup).le
    · exact le_rfl
  have hsum := sum_lt_sum _ (fun _ => 0) hle ⟨(u,w),hw,by simpa [hh] using hneg _ hw hh⟩
  rw [map_const',sum_replicate,smul_zero] at hsum
  exact absurd h.nonneg hsum.not_ge

lemma healthySum_nonneg (h : ∀ p ∈ us.zip ws, p.1.healthy = true → 0≤p.2) : 0 ≤ healthySum (fun _ w => w) us ws := by
  apply sum_nonneg
  intro x hx
  obtain ⟨p,hp,rfl⟩ := mem_map.mp hx
  split_ifs with hup
  · exact h p hp hup
  · exact le_rfl

lemma mgr_select (lb : WeightedRoundRobinLB) : lb.select.2.mgr = lb.mgr := by
  unfold select
  split
  · rfl
  · dsimp only
    split <;> rfl

lemma Balanced.select (h : lb.Balanced) : lb.select.2.Balanced := by
  refine ⟨by simpa [mgr_select] using h.positive,?_⟩
  by_cases hup : ∃ u ∈ lb.mgr.upstreams, u.healthy = true
  · have hanswer := answers_select_iff.mpr fun _ => h.lifted hup
    have hsome : lb.select.1.isSome = true := by
      cases hselect : lb.select.1 with
      | some u => rfl
      | none =>
        obtain ⟨u,hu,hh⟩ := hup
        simp [hselect,Answers] at hanswer
        simp [hanswer u hu] at hh
    simpa [mgr_select,healthySum_select hsome] using h.nonneg
  · rw [mgr_select]
    exact healthySum_nonneg fun p hp hh => absurd ⟨p.1,(of_mem_zip hp).1,hh⟩ hup

lemma balanced_new {mgr : UpstreamManager} (hpositive : ∀ u ∈ mgr.upstreams, 1≤u.weight) : (new mgr).Balanced := by
  refine ⟨hpositive,healthySum_nonneg fun p hp _ => ?_⟩
  have hw := (of_mem_zip hp).2
  simp [new,weights,resize] at hw
  exact hw.2.ge

/-- Selections keep the balance, so that nothing is missed if changes of health and of the list do. -/
lemma answers_of_balanced (h : lb.Balanced) {calls : List BalancerCall}
    (hmeets : Meets step (fun lb call => call ≠ .select → ∀ lb', lb.step call = some lb' → lb'.Balanced) lb calls) :
    Meets step (fun lb call => call = .select → Answers lb.mgr.upstreams lb.select.1) lb calls := by
  refine hmeets.imp ?_ ?_ h
  · intro lb call lb' hlb hcall hstep
    by_cases hselect : call = .select
    · subst hselect
      simp only [step,Option.some.injEq] at hstep
      exact hstep ▸ hlb.select
    · exact hcall hselect lb' hstep
  · intro lb call hlb _ _
    exact answers_select_iff.mpr hlb.lifted

end Balance

/-- In every run, from any list of upstreams on, all selections are right exactly if at every selection some upstream
that is up has a current weight of at least minus its weight, unless none is up. With positive weights that can only
fail behind a change of health or of the list that leaves the balancer unbalanced. -/
theorem answers_run_iff (mgr : UpstreamManager) (calls : List BalancerCall) :
    (Meets step (fun lb call => call = .select → Answers lb.mgr.upstreams lb.select.1) (.new mgr) calls ↔
      Meets step (fun lb call => call = .select →
        (∃ u ∈ lb.mgr.upstreams, u.healthy = true) → Lifted lb.mgr.upstreams lb.weights) (.new mgr) calls) ∧
    ((∀ u ∈ mgr.upstreams, 1≤u.weight) →
      Meets step (fun lb call => call ≠ .select → ∀ lb', lb.step call = some lb' → lb'.Balanced) (.new mgr) calls →
      Meets step (fun lb call => call = .select → Answers lb.mgr.upstreams lb.select.1) (.new mgr) calls) := by
  refine ⟨?_,fun hpositive => answers_of_balanced (balanced_new hpositive)⟩
  exact meets_iff (fun _ _ _ (_ : True) => imp_congr_right fun _ => answers_select_iff)
    (fun _ _ _ _ _ _ _ => trivial) trivial

theorem answers_after_markDown : Meets step (fun lb call => call = .select → Answers lb.mgr.upstreams lb.select.1)
    (.new (.reload [⟨"10.0.0.1",80,1,0,true⟩,⟨"10.0.0.2",80,1,0,true⟩])) [.select,.markDown "10.0.0.1" 80,
      .select] := by
  apply (answers_run_iff _ _).2 (by decide)
  refine ⟨by simp,?_⟩
  rintro _ ⟨⟩
  refine ⟨?_,by simp [Meets]⟩
  rintro - _ ⟨⟩
  exact ⟨by decide +kernel,by decide +kernel⟩

/-- Of three upstreams of equal weight one is chosen and the others go down: the next selection finds nothing. -/
theorem select_misses_healthy :
    (run step (.new (.reload [⟨"10.0.0.1",80,1,0,true⟩,⟨"10.0.0.2",80,1,0,true⟩,⟨"10.0.0.3",80,1,0,true⟩]))
      [.select,.markDown "10.0.0.2" 80,.markDown "10.0.0.3" 80]).any
        (fun lb => lb.select.1 = none ∧ ∃ u ∈ lb.mgr.upstreams, u.healthy = true) = true := by decide +kernel

end WeightedRoundRobinLB
end TitanKV.Skynet
