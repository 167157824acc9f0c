import TitanKV.Skynet.LoadBalancer

/-! The health check of the proxy, which tries to connect to every upstream in turn. -/
namespace TitanKV.Skynet
open List

structure HealthCheck where
  mgr : UpstreamManager
  failThreshold : ℤ := 3
  recoverThreshold : ℤ := 2
  deriving DecidableEq,Repr

structure Probe where
  host : String
  port : ℤ
  success : Bool
  deriving DecidableEq,Repr

namespace HealthCheck

/-- A connection that is made or refused marks the upstream at once; the thresholds are not read. -/
def probe (hc : HealthCheck) (p : Probe) : HealthCheck :=
  { hc with mgr := if p.success then hc.mgr.markUp p.host p.port else hc.mgr.markDown p.host p.port }

def start (hc : HealthCheck) (probes : List Probe) : HealthCheck := probes.foldl probe hc

/-- How many of the last probes of an upstream had this outcome. -/
def streak (u : Upstream) (outcome : Bool) (probes : List Probe) : ℕ :=
  ((probes.filter fun p => p.host = u.host ∧ p.port = u.port).reverse.takeWhile fun p => p.success = outcome).length

/-- The health of an upstream changes only at a probe that completes the streak which its threshold asks for. -/
def Respects (hc : HealthCheck) (probes : List Probe) : Prop :=
  ∀ before p, before ++ [p] <+: probes → ∀ (k : ℕ) (u u' : Upstream), (hc.start before).mgr.upstreams[k]? = some u →
    (hc.start (before++[p])).mgr.upstreams[k]? = some u' → u.healthy ≠ u'.healthy →
      (if u'.healthy then hc.recoverThreshold else hc.failThreshold) ≤ streak u u'.healthy (before++[p])

lemma probe_eq (hc : HealthCheck) (p : Probe) :
    hc.probe p = { hc with mgr := hc.mgr.setHealthy p.success p.host p.port } := by
  cases hp : p.success <;> simp [probe,hp,UpstreamManager.markUp,UpstreamManager.markDown]

/-- Since the first outcome of the other kind already counts, thresholds above one are not respected. -/
theorem respects_iff (failThreshold recoverThreshold : ℤ) :
    (∀ mgr probes, Respects ⟨mgr,failThreshold,recoverThreshold⟩ probes) ↔ failThreshold≤1 ∧ recoverThreshold≤1 := by
  constructor
  · intro h
    have hfirst (up : Bool) := h (.reload [⟨"",0,1,0,up⟩]) [⟨"",0,!up⟩] [] _ prefix_rfl 0 ⟨"",0,1,0,up⟩
      ⟨"",0,1,0,!up⟩ rfl
    exact ⟨by simpa [streak] using hfirst true rfl (by simp),by simpa [streak] using hfirst false rfl (by simp)⟩
  · rintro ⟨hfail,hrecover⟩ mgr probes before p - k u u' hu hu' hchange
    rw [start,foldl_append] at hu'
    change (probe (start _ before) p).mgr.upstreams[k]? = _ at hu'
    rw [probe_eq] at hu'
    simp only [UpstreamManager.setHealthy,getElem?_map,hu,Option.map_some,Option.some.injEq] at hu'
    by_cases haddress : u.host = p.host ∧ u.port = p.port
    · have hsuccess : u'.healthy = p.success := by
        rw [← hu',if_pos haddress]
      have hstreak : 1 ≤ streak u u'.healthy (before++[p]) := by
        simp [streak,haddress,hsuccess]
      split <;> dsimp only <;> omega
    · rw [if_neg haddress] at hu'
      exact absurd (congrArg Upstream.healthy hu') hchange

/-- One failed connection takes an upstream out, although three in a row are asked for. -/
theorem start_marks_down : ¬Respects ⟨.reload [⟨"10.0.0.1",80,1,0,true⟩],3,2⟩ [⟨"10.0.0.1",80,false⟩] := by
  intro h
  have hstreak := h [] _ prefix_rfl 0 _ ⟨"10.0.0.1",80,1,0,false⟩ rfl (by decide) (by decide)
  exact absurd hstreak (by decide)

end HealthCheck
end TitanKV.Skynet
