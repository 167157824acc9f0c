import Mathlib.Tactic

/-! A chain of handlers that a request passes through. A handler may run the rest of the chain from within with
`Next`, more than once if it likes, or have the rest left out with `Abort`; the position in the chain is part of the
context that all handlers share. -/
namespace TitanKV.HandlerChain
variable {σ : Type*}

structure Context (σ : Type*) where
  index : ℕ
  data : σ
  deriving DecidableEq,Repr

/-- No chain is as long as this. -/
def abortIndex : ℕ := 63

namespace Context

def advance (c : Context σ) : Context σ := { c with index := c.index+1 }

def abort (c : Context σ) : Context σ := { c with index := abortIndex }

def isAborted (c : Context σ) : Bool := abortIndex≤c.index

end Context

/-- A handler is given the `Next` of its context. -/
abbrev Handler (σ : Type*) := (Context σ → Option (Context σ)) → Context σ → Option (Context σ)

/-- The loop of `Next`. Behind the end of the chain it stops; otherwise it runs the handler it stands at and goes on
behind it. Every call within a call takes fuel. -/
class Engine (σ : Type*) where
  loop : List (Handler σ) → ℕ → Context σ → Option (Context σ)
  loop_of_length_le : ∀ {hs : List (Handler σ)} {fuel : ℕ} {c : Context σ}, hs.length≤c.index →
    loop hs (fuel+1) c = some c
  loop_of_getElem? : ∀ {hs : List (Handler σ)} {fuel : ℕ} {c : Context σ} {handler : Handler σ},
    hs[c.index]? = some handler →
    loop hs (fuel+1) c = (handler (fun c => loop hs fuel c.advance) c).bind fun c => loop hs fuel c.advance

export Engine (loop loop_of_length_le loop_of_getElem?)

def serve [Engine σ] (hs : List (Handler σ)) (data : σ) : Option (Context σ) := loop hs (hs.length+1) ⟨0,data⟩

lemma loop_of_some [Engine σ] {hs : List (Handler σ)} {fuel : ℕ} {c c' : Context σ} {handler : Handler σ}
    (h : hs[c.index]? = some handler) (hrun : handler (fun c => loop hs (fuel+1) c.advance) c = some c')
    (hdone : hs.length≤c'.index+1) : loop hs (fuel+2) c = some c'.advance := by
  rw [loop_of_getElem? h,hrun]
  exact loop_of_length_le hdone

/-- The loop as a function of the fuel. -/
def fueled (hs : List (Handler σ)) : ℕ → Context σ → Option (Context σ)
  | 0,_ => none
  | fuel+1,c =>
    match hs[c.index]? with
    | none => some c
    | some h => (h (fun c => fueled hs fuel c.advance) c).bind fun c => fueled hs fuel c.advance

instance : Engine σ where
  loop := fueled
  loop_of_length_le h := by simp [fueled,List.getElem?_eq_none h]
  loop_of_getElem? h := by simp [fueled,h]

end TitanKV.HandlerChain
