import TitanKV.Minikv.Session

/-! A session without compaction, seen as the operations of each generation: the ones
flushed to level 0, the frozen ones and the active one. The database refines this view, and
reads are settled in it. -/
namespace TitanKV.Minikv
open Layers List

/-- Generations in order of age, oldest first. -/
structure Generations where
  flushed : List (List BatchOp)
  frozen : List (List BatchOp)
  active : List BatchOp

namespace Generations

def start : Generations := ⟨[],[],[]⟩

def step (g : Generations) : Event → Generations
  | .write group => { g with active := g.active ++ group.flatten }
  | .freeze => { g with frozen := g.frozen++[g.active], active := [] }
  | .flush =>
    match g.frozen with
    | [] => g
    | ops::frozen =>
      if ops.isEmpty then { g with frozen := frozen }
      else { g with flushed := g.flushed++[ops], frozen := frozen }
  | .compact _ | .reopen => g

def run (g : Generations) (events : List Event) : Generations := events.foldl step g

def ops (g : Generations) : List BatchOp := g.flushed.flatten++g.frozen.flatten++g.active

variable (g : Generations)

lemma ops_step {e : Event} (h : e.plain = true) :
    (g.step e).ops = g.ops++e.ops := by
  cases e with
  | write group | freeze => simp [step,ops,Event.ops]
  | flush =>
    obtain ⟨flushed,frozen,active⟩ := g
    cases frozen with
    | nil => simp [step,ops,Event.ops]
    | cons gen frozen =>
      by_cases hg : gen = []
      · simp [step,ops,Event.ops,hg]
      · simp [step,ops,Event.ops,hg]
  | compact level | reopen => cases h

theorem ops_run {events : List Event} (h : ∀ e ∈ events, e.plain = true) :
    (g.run events).ops = g.ops ++ history events := by
  induction events generalizing g with
  | nil => simp [run,history]
  | cons e es ih =>
    have htail := ih (g.step e) (fun x hx => h x (by simp [hx]))
    change ((g.step e).run es).ops = _
    rw [htail,ops_step g (h e (by simp)),append_assoc]
    rfl

/-- The order in which `get` visits the generations: level 0 comes oldest first. -/
def visited (g : Generations) : List (List BatchOp) := g.active::(g.frozen.reverse++g.flushed)

/-- The search of `get`: a generation whose last operation is a delete is passed over. -/
def search (g : Generations) (k : Bytes) : Option Bytes :=
  g.visited.findSome? fun ops => (lastOp ops k).join

def InMemory (g : Generations) (k : Bytes) : Prop :=
  ∃ ops ∈ g.frozen ++ [g.active], ∃ op ∈ ops, op.key = k

/-- The oldest and the newest level-0 file that hold the key agree about it. -/
def FlushedAgree (g : Generations) (k : Bytes) : Prop :=
  g.flushed.findSome? (fun ops => lastOp ops k) = overlay (g.flushed.map lastOp) k

/-- No generation ends on a put of the key. -/
def NoLivePut (g : Generations) (k : Bytes) : Prop :=
  ∀ ops ∈ g.visited, (lastOp ops k).join = none

lemma lastOp_ops (k : Bytes) :
    lastOp g.ops k =
      ((lastOp g.active k).or (overlay (g.frozen.map lastOp) k)).or (overlay (g.flushed.map lastOp) k) := by
  rw [ops,lastOp_append,lastOp_append,lastOp_flatten,lastOp_flatten]
  cases lastOp g.active k <;> rfl

lemma search_eq_none_iff (k : Bytes) : g.search k = none ↔ g.NoLivePut k := by
  rw [search,findSome?_eq_none_iff]
  rfl

lemma inMemory_iff (k : Bytes) :
    g.InMemory k ↔ (lastOp g.active k).or (overlay (g.frozen.map lastOp) k) ≠ none := by
  rw [Ne,Option.or_eq_none_iff,overlay_eq_none_iff]
  constructor
  · rintro ⟨ops,hops,op,hop,hk⟩ ⟨ha,hf⟩
    rcases mem_append.mp hops with hmem | hmem
    · exact lastOp_eq_none_iff.mp (hf _ (mem_map_of_mem hmem)) op hop hk
    · rw [mem_singleton] at hmem
      subst hmem
      exact lastOp_eq_none_iff.mp ha op hop hk
  · intro h
    by_contra hnot
    apply h
    refine ⟨lastOp_eq_none_iff.mpr fun op hop hk => hnot ⟨g.active,by simp,op,hop,hk⟩,?_⟩
    intro layer hlayer
    obtain ⟨ops,hops,rfl⟩ := mem_map.mp hlayer
    exact lastOp_eq_none_iff.mpr fun op hop hk => hnot ⟨ops,by simp [hops],op,hop,hk⟩

end Generations
end TitanKV.Minikv
