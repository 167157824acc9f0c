import Mathlib.Tactic

/-! The request rate of the observability service. Once a second the services' request counters are added up and the
loop makes a rate of the total; what it remembers for the next tick is the rate it stores. -/
namespace TitanKV.Services.Observability

/-- `QPS` of a snapshot, from the total of the counters. -/
def buildSnapshot (total : ℚ) : ℚ := total/60

/-- One tick: what is remembered and what is stored. -/
def tick (prevQPS total : ℚ) : ℚ × ℚ :=
  let qps := buildSnapshot total
  let qps := if 0<prevQPS ∧ prevQPS<qps then qps-prevQPS else qps
  (qps,if qps<0 then 0 else qps)

/-- The rates stored, tick by tick. -/
def collectLoop : ℚ → List ℚ → List ℚ
  | _,[] => []
  | prevQPS,total::totals => (tick prevQPS total).2 :: collectLoop (tick prevQPS total).1 totals

/-- From the second tick on the rate stored is what the total has grown by, each total taken at this scale. -/
def StoresGrowth (scale : ℚ → ℚ) (totals : List ℚ) : Prop :=
  ∀ i a b, totals[i]? = some a → totals[i+1]? = some b → (collectLoop 0 totals)[i+1]? = some (scale b-scale a)

def StoresIncrements : List ℚ → Prop := StoresGrowth id

variable {prev a b c : ℚ}

lemma tick_of_lt (hprev : 0<prev) (h : prev<buildSnapshot c) :
    tick prev c = (buildSnapshot c-prev,buildSnapshot c-prev) := by
  simp only [tick,if_pos (And.intro hprev h),if_neg (sub_pos.mpr h).not_gt]

lemma tick_of_le (hc : 0≤c) (h : prev≤0 ∨ buildSnapshot c ≤ prev) :
    tick prev c = (buildSnapshot c,buildSnapshot c) := by
  have hsnapshot : 0 ≤ buildSnapshot c := div_nonneg hc (by norm_num)
  have hsame : ¬(0<prev ∧ prev<buildSnapshot c) := fun hlt => h.elim hlt.1.not_ge hlt.2.not_ge
  simp only [tick,if_neg hsame,if_neg hsnapshot.not_gt]

/-- The second rate; without requests between the first two ticks it is the whole snapshot again. -/
lemma collectLoop_second (ha : 0<a) (hab : a≤b) (totals : List ℚ) : (collectLoop 0 (a::b::totals))[1]? =
    some (if a<b then buildSnapshot b-buildSnapshot a else buildSnapshot b) := by
  have hsnapshot : 0<buildSnapshot a := div_pos ha (by norm_num)
  have hfirst := tick_of_le ha.le (.inl le_rfl)
  rw [collectLoop,collectLoop,hfirst,List.getElem?_cons_succ,List.getElem?_cons_zero]
  split
  · rename_i hlt
    rw [tick_of_lt hsnapshot (div_lt_div_of_pos_right hlt (by norm_num))]
  · rename_i hge
    obtain rfl := hab.antisymm (not_lt.mp hge)
    rw [tick_of_le ha.le (.inr le_rfl)]

section Totals
variable {totals : List ℚ} (ha : 0<a) (hmono : (a::totals).Pairwise (· ≤ ·))
include ha hmono

/-- The second rate already is not what the totals differ by. -/
theorem storesIncrements_iff : StoresIncrements (a::totals) ↔ totals = [] := by
  rcases totals with _ | ⟨b,totals⟩
  · exact iff_of_true (fun i x y _ hy => nomatch hy) rfl
  refine iff_of_false (fun h => ?_) (by simp)
  have hab : a≤b := List.rel_of_pairwise_cons hmono List.mem_cons_self
  have hsecond : some _ = some (b-a) := (collectLoop_second ha hab totals).symm.trans (h 0 a b rfl rfl)
  rw [Option.some.injEq,buildSnapshot,buildSnapshot] at hsecond
  split at hsecond <;> linarith

/-- Even at the scale of the snapshots the third rate counts the first one again. -/
lemma storesGrowth_buildSnapshot_iff :
    StoresGrowth buildSnapshot (a::totals) ↔ totals = [] ∨ ∃ b, totals = [b] ∧ a<b := by
  have hsnapshot : 0<buildSnapshot a := div_pos ha (by norm_num)
  rcases totals with _ | ⟨b,totals⟩
  · exact iff_of_true (fun i x y _ hy => nomatch hy) (.inl rfl)
  have hab : a≤b := List.rel_of_pairwise_cons hmono List.mem_cons_self
  have hrate := collectLoop_second ha hab totals
  rcases hab.eq_or_lt with rfl | hlt
  · refine iff_of_false (fun h => ?_) (by simp)
    have hsecond := hrate.symm.trans (h 0 a a rfl rfl)
    rw [if_neg (lt_irrefl a),sub_self,Option.some.injEq] at hsecond
    exact hsnapshot.ne' hsecond
  rw [if_pos hlt] at hrate
  rcases totals with _ | ⟨c,totals⟩
  · refine iff_of_true (fun i x y hx hy => ?_) (.inr ⟨b,rfl,hlt⟩)
    rcases i with _ | i
    · cases hx
      cases hy
      exact hrate
    · exact nomatch hy
  · refine iff_of_false (fun h => ?_) (by simp)
    have hgrown : buildSnapshot a<buildSnapshot b := div_lt_div_of_pos_right hlt (by norm_num)
    have hbc : b≤c := List.rel_of_pairwise_cons hmono.of_cons List.mem_cons_self
    have hsnapshots' : buildSnapshot b ≤ buildSnapshot c := div_le_div_of_nonneg_right hbc (by norm_num)
    have hthird := h 1 b c rfl rfl
    rw [collectLoop,collectLoop,collectLoop,tick_of_le ha.le (.inl le_rfl),tick_of_lt hsnapshot hgrown,
      tick_of_lt (sub_pos.mpr hgrown) (by linarith)] at hthird
    simp only [List.getElem?_cons_succ,List.getElem?_cons_zero,Option.some.injEq] at hthird
    linarith

end Totals

theorem storesIncrements_first : StoresIncrements [60] := (storesIncrements_iff (by norm_num) (by norm_num)).mpr rfl

/-- The total grows by 60 and the second rate is 1. -/
theorem not_storesIncrements_two : ¬StoresIncrements [60,120] := by
  intro h
  have hsecond := h 0 60 120 rfl rfl
  norm_num [collectLoop,tick,buildSnapshot] at hsecond

end TitanKV.Services.Observability
