import Mathlib.Tactic
import Mathlib.Data.List.Perm.Subperm
import Mathlib.Logic.Relation

/-! Exploration of a graph with a worklist. Which candidate is looked at next, and which of the
items found are kept, is left to the user of the loop; any of its parts may fail. -/
namespace TitanKV.Exploration
open List Subperm
variable {α ε : Type*} [DecidableEq α]

/-- The links that lead to items not visited yet, each of them once. -/
def discover : List α → List α → List α
  | _,[] => []
  | visited,x::links => if x ∈ visited then discover visited links else x :: discover (visited++[x]) links

structure Rules (α ε : Type*) where
  pick : List α → Except ε (α × List α)
  next : α → Except ε (List α)
  trim : List α → Except ε (List α)
  spent : ε

def explore (R : Rules α ε) : ℕ → List α → List α → List α → Except ε (List α)
  | _,_,[],results => .ok results
  | 0,_,_::_,_ => .error R.spent
  | fuel+1,visited,c::cs,results =>
    match R.pick (c::cs) with
    | .error e => .error e
    | .ok (curr,rest) =>
      match R.next curr with
      | .error e => .error e
      | .ok links =>
        match R.trim (results ++ discover visited links) with
        | .error e => .error e
        | .ok results => explore R fuel (visited ++ discover visited links) (rest ++ discover visited links) results

lemma mem_append_discover (visited links : List α) (x : α) :
    x ∈ visited ++ discover visited links ↔ x ∈ visited ∨ x ∈ links := by
  induction links generalizing visited with
  | nil => simp [discover]
  | cons y links ih =>
    rw [discover]
    split
    · rename_i hy
      rw [ih,mem_cons]
      constructor
      · rintro (h | h)
        · exact .inl h
        · exact .inr (.inr h)
      · rintro (h | rfl | h)
        · exact .inl h
        · exact .inl hy
        · exact .inr h
    · rw [append_cons,ih,mem_append,mem_singleton,mem_cons,or_assoc]

lemma nodup_append_discover {visited : List α} (links : List α) (h : visited.Nodup) :
    (visited ++ discover visited links).Nodup := by
  induction links generalizing visited with
  | nil => simpa [discover] using h
  | cons y links ih =>
    rw [discover]
    split
    · exact ih h
    · rename_i hy
      rw [append_cons]
      exact ih (nodup_append.mpr ⟨h,nodup_singleton y,by
        rintro a ha b hb rfl
        exact hy (mem_singleton.mp hb ▸ ha)⟩)

omit [DecidableEq α] in
lemma nodup_of_subperm {l l' : List α} (h : List.Subperm l l') (hnodup : l'.Nodup) : l.Nodup :=
  let ⟨_,hperm,hsub⟩ := h
  hperm.nodup_iff.mp (hnodup.sublist hsub)

/-- The rules never fail on the items of `domain`, whose links stay inside it; `ef` items are kept. -/
structure Rules.Safe (R : Rules α ε) (domain : List α) (links : α → List α) (ef : ℕ) : Prop where
  next_eq : ∀ x ∈ domain, R.next x = .ok (links x)
  links_mem : ∀ x ∈ domain, ∀ y ∈ links x, y ∈ domain
  pick_eq : ∀ cs, cs ≠ [] → (∀ x ∈ cs, x ∈ domain) → ∃ c rest, R.pick cs = .ok (c,rest) ∧ List.Perm (c::rest) cs
  trim_eq : ∀ l, (∀ x ∈ l, x ∈ domain) → ∃ r, R.trim l = .ok r ∧ List.Subperm r l ∧ r.length = min ef l.length

def Reaches (links : α → List α) : α → α → Prop := Relation.ReflTransGen fun a b => b ∈ links a

/-- The invariant of the loop: what is visited can be reached, and only a candidate may have a link
that was not followed. -/
structure Explored (domain : List α) (links : α → List α) (ef : ℕ) (start : α)
    (visited candidates results : List α) :
    Prop where
  nodup : visited.Nodup
  inside : ∀ x ∈ visited, x ∈ domain
  start_mem : start ∈ visited
  reaches : ∀ x ∈ visited, Reaches links start x
  pending : List.Subperm candidates visited
  followed : ∀ x ∈ visited, x ∉ candidates → ∀ y ∈ links x, y ∈ visited
  kept : List.Subperm results visited
  length_results : 1≤ef → results.length = min ef visited.length

section Loop
variable {R : Rules α ε} {domain : List α} {links : α → List α} {ef : ℕ} {start : α}
  {visited candidates results : List α}

omit [DecidableEq α] in
lemma explored_start (hstart : start ∈ domain) : Explored domain links ef start [start] [start] [start] where
  nodup := nodup_singleton start
  inside x hx := mem_singleton.mp hx ▸ hstart
  start_mem := mem_singleton_self start
  reaches x hx := mem_singleton.mp hx ▸ Relation.ReflTransGen.refl
  pending := refl _
  followed x hx hnot := absurd hx hnot
  kept := refl _
  length_results hef := by rw [length_singleton,min_eq_right hef]

lemma Explored.step (h : Explored domain links ef start visited candidates results) (hsafe : R.Safe domain links ef)
    {curr : α} {rest kept : List α} (hpick : List.Perm (curr::rest) candidates)
    (hkept : List.Subperm kept (results ++ discover visited (links curr)))
    (hlength : kept.length = min ef (results ++ discover visited (links curr)).length) :
    Explored domain links ef start (visited ++ discover visited (links curr))
      (rest ++ discover visited (links curr)) kept := by
  have hcurr : curr ∈ visited := h.pending.subset (hpick.subset mem_cons_self)
  have hrest : List.Subperm rest visited :=
    (sublist_cons_self curr rest).subperm.trans (hpick.subperm.trans h.pending)
  refine ⟨nodup_append_discover _ h.nodup,?_,mem_append_left _ h.start_mem,?_,append hrest (refl _),?_,
    hkept.trans (append h.kept (refl _)),?_⟩
  · intro x hx
    rcases (mem_append_discover visited _ x).mp hx with hx | hx
    · exact h.inside x hx
    · exact hsafe.links_mem curr (h.inside curr hcurr) x hx
  · intro x hx
    rcases (mem_append_discover visited _ x).mp hx with hx | hx
    · exact h.reaches x hx
    · exact (h.reaches curr hcurr).tail hx
  · intro x hx hnot y hy
    rw [mem_append,not_or] at hnot
    rw [mem_append_discover]
    have hx' : x ∈ visited := (mem_append.mp hx).resolve_right hnot.2
    by_cases hxc : x = curr
    · exact .inr (hxc ▸ hy)
    · refine .inl (h.followed x hx' (fun hc => ?_) y hy)
      rcases mem_cons.mp (hpick.symm.subset hc) with hc | hc
      · exact hxc hc
      · exact hnot.1 hc
  · intro hef
    rw [hlength,length_append,length_append,h.length_results hef]
    omega

omit [DecidableEq α] in
lemma Explored.mem_iff (h : Explored domain links ef start visited [] results) (x : α) :
    x ∈ visited ↔ Reaches links start x := by
  refine ⟨h.reaches x,fun hx => ?_⟩
  induction hx with
  | refl => exact h.start_mem
  | tail _ hlink ih => exact h.followed _ ih not_mem_nil _ hlink

/-- With as much fuel as there are items, the loop returns: it has seen exactly what can be reached, and
kept as many items of it as it may. -/
theorem explore_eq_ok (hsafe : R.Safe domain links ef) (fuel : ℕ)
    (h : Explored domain links ef start visited candidates results)
    (hfuel : domain.length + candidates.length ≤ fuel + visited.length) :
    ∃ out seen, explore R fuel visited candidates results = .ok out ∧ seen.Nodup ∧
      (∀ x, x ∈ seen ↔ Reaches links start x) ∧ List.Subperm out seen ∧
        (1≤ef → out.length = min ef seen.length) := by
  induction fuel generalizing visited candidates results with
  | zero =>
    cases candidates with
    | nil => exact ⟨results,visited,by rw [explore],h.nodup,h.mem_iff,h.kept,h.length_results⟩
    | cons c cs =>
      have hle := (subperm_of_subset h.nodup h.inside).length_le
      simp only [length_cons] at hfuel
      omega
  | succ fuel ih =>
    cases candidates with
    | nil => exact ⟨results,visited,by rw [explore],h.nodup,h.mem_iff,h.kept,h.length_results⟩
    | cons c cs =>
      obtain ⟨curr,rest,hpick,hperm⟩ := hsafe.pick_eq (c::cs) (cons_ne_nil c cs)
        fun x hx => h.inside x (h.pending.subset hx)
      have hcurr : curr ∈ domain := h.inside curr (h.pending.subset (hperm.subset mem_cons_self))
      obtain ⟨kept,htrim,hsub,hlength⟩ := hsafe.trim_eq (results ++ discover visited (links curr)) fun x hx => by
        rcases mem_append.mp hx with hx | hx
        · exact h.inside x (h.kept.subset hx)
        · rcases (mem_append_discover visited _ x).mp (mem_append_right _ hx) with hx | hx
          · exact h.inside x hx
          · exact hsafe.links_mem curr hcurr x hx
      have hrest : rest.length + 1 = cs.length + 1 := hperm.length_eq
      simp only [explore,hpick,hsafe.next_eq curr hcurr,htrim]
      refine ih (h.step hsafe hperm hsub hlength) ?_
      simp only [length_cons,length_append] at hfuel ⊢
      omega

end Loop
end TitanKV.Exploration
