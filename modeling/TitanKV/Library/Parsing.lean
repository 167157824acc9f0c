import Mathlib.Tactic

/-! Repeating a parser until it refuses to go on. A parser takes one item off the front of its
input and may hand a state on to the next item, as a format needs whose items are stored
relative to their predecessors. When it always consumes something the length of the input
bounds the loop. -/
namespace TitanKV.Parsing
open List
variable {α β σ : Type*}

section Scan

def ScanConsumes (p : σ → List β → Option (α × σ × List β)) : Prop :=
  ∀ st s a st' rest, p st s=some (a,st',rest) → rest.length<s.length

def scanFuel (p : σ → List β → Option (α × σ × List β)) : ℕ → σ → List β → List α
  | 0,_,_ => []
  | n+1,st,s =>
    match p st s with
    | none => []
    | some (a,st',rest) => a::scanFuel p n st' rest

/-- All items up to the first refusal. -/
def scan (p : σ → List β → Option (α × σ × List β)) (st : σ) (s : List β) : List α :=
  scanFuel p (s.length+1) st s

variable {p : σ → List β → Option (α × σ × List β)}

variable {s : List β}

lemma scanFuel_of_lt (hp : ScanConsumes p) {m n : ℕ} {st : σ} (hm : s.length < m)
    (hn : s.length<n) : scanFuel p m st s=scanFuel p n st s := by
  induction m generalizing n st s with
  | zero => omega
  | succ m ih =>
    cases n with
    | zero => omega
    | succ n =>
      simp only [scanFuel]
      cases hs : p st s with
      | none => rfl
      | some item =>
        obtain ⟨a,st',rest⟩ := item
        have hlt := hp st s a st' rest hs
        simp only [ih (s := rest) (n := n) (by omega) (by omega)]

theorem scan_of_none {st : σ} (h : p st s=none) : scan p st s=[] := by
  simp [scan,scanFuel,h]

theorem scan_of_some (hp : ScanConsumes p) {st st' : σ} {s rest : List β} {a : α}
    (h : p st s=some (a,st',rest)) : scan p st s=a::scan p st' rest := by
  have hlt := hp st s a st' rest h
  unfold scan
  rw [scanFuel,h]
  simp only
  rw [scanFuel_of_lt hp hlt (Nat.lt_succ_self _)]

lemma exists_of_mem_scan {a : α} {st : σ} (h : a ∈ scan p st s) :
    ∃ st₁ s' st₂ rest, p st₁ s'=some (a,st₂,rest) := by
  unfold scan at h
  generalize s.length+1=n at h
  induction n generalizing st s with
  | zero => simp [scanFuel] at h
  | succ n ih =>
    rw [scanFuel] at h
    split at h
    · cases h
    · rename_i a' st' rest hs
      rcases mem_cons.mp h with rfl | h
      · exact ⟨st,s,st',rest,hs⟩
      · exact ih h

end Scan

/-! Parsers without a state. -/

def Consumes (p : List β → Option (α × List β)) : Prop :=
  ∀ s a rest, p s=some (a,rest) → rest.length<s.length

def stateless (p : List β → Option (α × List β)) : Unit → List β → Option (α × Unit × List β) :=
  fun _ s => (p s).map fun item => (item.1,(),item.2)

def many (p : List β → Option (α × List β)) (s : List β) : List α := scan (stateless p) () s

variable {p : List β → Option (α × List β)}

lemma stateless_eq_some {u v : Unit} {s rest : List β} {a : α} :
    stateless p u s=some (a,v,rest) ↔ p s=some (a,rest) := by
  simp [stateless]

lemma Consumes.stateless (hp : Consumes p) : ScanConsumes (stateless p) :=
  fun _ s a _ rest h => hp s a rest (stateless_eq_some.mp h)

theorem many_of_none {s : List β} (h : p s=none) : many p s=[] :=
  scan_of_none (by simp [stateless,h])

theorem many_of_some (hp : Consumes p) {s rest : List β} {a : α} (h : p s=some (a,rest)) :
    many p s=a::many p rest :=
  scan_of_some hp.stateless (stateless_eq_some.mpr h)

lemma exists_of_mem_many {a : α} {s : List β} (h : a ∈ many p s) : ∃ s' rest, p s'=some (a,rest) := by
  obtain ⟨_,s',_,rest,hs⟩ := exists_of_mem_scan h
  exact ⟨s',rest,stateless_eq_some.mp hs⟩

/-- A parser that reads one item off each encoded one reads the items off the encoded list. -/
theorem many_flatMap_map {γ : Type*} (hp : Consumes p) (encode : γ → List β) (f : γ → α) (as : List γ) (s : List β)
    (h : ∀ a ∈ as, ∀ rest, p (encode a ++ rest)=some (f a,rest)) :
    many p (as.flatMap encode ++ s)=as.map f ++ many p s := by
  induction as with
  | nil => rfl
  | cons a as ih =>
    have ha := h a (by simp) (as.flatMap encode ++ s)
    rw [flatMap_cons,append_assoc,many_of_some hp ha,
      ih (fun b hb => h b (by simp [hb])),map_cons,cons_append]

theorem many_flatMap (hp : Consumes p) (encode : α → List β) (as : List α) (s : List β)
    (h : ∀ a ∈ as, ∀ rest, p (encode a ++ rest)=some (a,rest)) :
    many p (as.flatMap encode ++ s)=as ++ many p s := by
  simpa using many_flatMap_map hp encode id as s h

end TitanKV.Parsing
