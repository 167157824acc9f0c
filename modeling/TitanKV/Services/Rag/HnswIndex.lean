import TitanKV.Library.Directory
import TitanKV.Library.Exploration
import TitanKV.Library.Selection
import TitanKV.Minikv.Coding

/-! The hierarchical graph index of the RAG service. Every node has a list of neighbours on each of
its layers; a search walks greedily from the entry down to the layer it wants and explores that layer
from there. Scores are an arbitrary function into a linear order, layer draws a number up to eight. A
method runs on a goroutine that records what it asks of `mu`; it may panic, and it stops for good when
`mu` is not granted. -/
namespace TitanKV.Services.Rag
open Minikv (Bytes)

/-- How a computation fails to return. `diverged` would be a loop without end. -/
inductive Panic
  | indexOutOfRange
  | nilDereference
  | sliceOutOfRange
  | diverged
  deriving DecidableEq,Repr

/-- How a method fails to return. -/
inductive Fault
  | panic (p : Panic)
  | blocked
  deriving DecidableEq,Repr

structure HnswNode (F : Type*) where
  vec : List F
  layers : List (List Bytes)
  deriving DecidableEq

structure HNSWIndex (F : Type*) where
  dim : ℕ
  m : ℕ
  nodes : Directory Bytes (HnswNode F)
  entry : Bytes
  maxLayer : ℕ
  deriving DecidableEq

structure Hit (S : Type*) where
  chunkID : Bytes
  score : S
  deriving DecidableEq

/-- The sum and product of `int`. -/
def goInt (z : ℤ) : ℤ := z.bmod (2^64)

namespace HNSWIndex
variable {F S : Type*} [LinearOrder S] (score : List F → List F → S)

def new (dim : ℕ) : HNSWIndex F := ⟨dim,16,[],[],0⟩

section Search
variable (h : HNSWIndex F) (q : List F)

def scoreAt (id : Bytes) : Except Panic S :=
  match h.nodes.get id with
  | none => .error .nilDereference
  | some node => .ok (score q node.vec)

def neighboursAt (layer : ℕ) (id : Bytes) : Except Panic (List Bytes) :=
  match h.nodes.get id with
  | none => .error .nilDereference
  | some node =>
    match node.layers[layer]? with
    | none => .error .indexOutOfRange
    | some links => .ok links

/-- One pass over a list of neighbours; the flag is `improved`. -/
def greedyPass : List Bytes → Bytes × S × Bool → Bytes × S × Bool
  | [],best => best
  | nb::nbs,(curr,currScore,improved) =>
    match h.nodes.get nb with
    | none => greedyPass nbs (curr,currScore,improved)
    | some nbNode =>
      if currScore < score q nbNode.vec then greedyPass nbs (nb,score q nbNode.vec,true)
      else greedyPass nbs (curr,currScore,improved)

def greedyLoop (layer : ℕ) : ℕ → Bytes → S → Except Panic Bytes
  | 0,_,_ => .error .diverged
  | fuel+1,curr,currScore =>
    match h.neighboursAt layer curr with
    | .error f => .error f
    | .ok links =>
      match h.greedyPass score q links (curr,currScore,false) with
      | (curr,_,false) => .ok curr
      | (curr,currScore,true) => greedyLoop layer fuel curr currScore

def greedyClosestLocked (start : Bytes) (layer : ℕ) : Except Panic Bytes :=
  match h.scoreAt score q start with
  | .error f => .error f
  | .ok currScore => h.greedyLoop score q layer (h.nodes.length+1) start currScore

def scored : List Bytes → Except Panic (List (Bytes × S))
  | [] => .ok []
  | id::ids =>
    match h.scoreAt score q id,scored ids with
    | .ok s,.ok rest => .ok ((id,s)::rest)
    | .error f,_ => .error f
    | .ok _,.error f => .error f

/-- The first candidate with the best score, and the others in their order. -/
def bestCandidate (candidates : List Bytes) : Except Panic (Bytes × List Bytes) :=
  match h.scored score q candidates with
  | .error f => .error f
  | .ok [] => .error .indexOutOfRange
  | .ok (x::xs) =>
    let best := Extraction.maxPosition Prod.snd 0 x 1 xs
    .ok (best.2.1,candidates.eraseIdx best.1)

def sortByScore (ids : List Bytes) : Except Panic (List Bytes) :=
  match h.scored score q ids with
  | .error f => .error f
  | .ok l =>
    let r := (Extraction.exchange Prod.snd).select (l.length-1) l
    .ok ((r.1++r.2).map Prod.fst)

def trimTo (ef : ℤ) (results : List Bytes) : Except Panic (List Bytes) :=
  if ef<results.length then
    match h.sortByScore score q results with
    | .error f => .error f
    | .ok l => if ef<0 then .error .sliceOutOfRange else .ok (l.take ef.toNat)
  else .ok results

def searchLayerLocked (entry : Bytes) (ef : ℤ) (layer : ℕ) : Except Panic (List Bytes) :=
  match Exploration.explore ⟨h.bestCandidate score q,h.neighboursAt layer,h.trimTo score q ef,.diverged⟩
      h.nodes.length [entry] [entry] [entry] with
  | .error f => .error f
  | .ok results => h.sortByScore score q results

def descendLocked (l : ℕ) : ℕ → Bytes → Except Panic Bytes
  | 0,curr => .ok curr
  | n+1,curr =>
    match h.greedyClosestLocked score q curr (l+n+1) with
    | .error f => .error f
    | .ok curr => descendLocked l n curr

def topKLocked (k : ℤ) : Except Panic (List (Hit S)) :=
  if h.nodes.length = 0 ∨ h.entry = [] then .ok []
  else
    match h.descendLocked score q 0 h.maxLayer h.entry with
    | .error f => .error f
    | .ok curr =>
      match h.searchLayerLocked score q curr (goInt (k*4)) 0 with
      | .error f => .error f
      | .ok cands =>
        match h.scored score q (cands.take k.toNat) with
        | .error f => .error f
        | .ok hits => .ok (hits.map fun hit => ⟨hit.1,hit.2⟩)

end Search

/-! What a goroutine does with `mu`. -/

inductive LockEvent
  | Lock
  | RLock
  | RUnlock
  | Unlock
  deriving DecidableEq,Repr

/-- `rwMutex` is `sync.RWMutex`. A `reentrant` mutex grants a request of the goroutine that holds it;
with it `add` does what it would do if its helpers left the lock alone. -/
inductive Mutex
  | rwMutex
  | reentrant
  deriving DecidableEq,Repr

structure Goroutine (F : Type*) where
  index : HNSWIndex F
  events : List LockEvent

def heldExclusively (events : List LockEvent) : Bool := events.count .Unlock < events.count .Lock

namespace Goroutine

def release (t : Goroutine F) (e : LockEvent) : Goroutine F := { t with events := t.events ++ [e] }

def request (mutex : Mutex) (e : LockEvent) (t : Goroutine F) : Except Fault Unit × Goroutine F :=
  if mutex = .rwMutex ∧ heldExclusively t.events then (.error .blocked,{ t with events := t.events ++ [e] })
  else (.ok (),{ t with events := t.events ++ [e] })

/-- The deferred release of a method: it runs when the method returns or panics. -/
def deferred {α : Type*} (e : LockEvent) : Except Fault α × Goroutine F → Except Fault α × Goroutine F
  | (.error .blocked,t) => (.error .blocked,t)
  | (r,t) => (r,t.release e)

/-- A method body under a lock that is released by a deferred call. -/
def under {α : Type*} (mutex : Mutex) (acquire free : LockEvent) (body : Goroutine F → Except Fault α × Goroutine F)
    (t : Goroutine F) : Except Fault α × Goroutine F :=
  match t.request mutex acquire with
  | (.error f,t) => (.error f,t)
  | (.ok _,t) => deferred free (body t)

end Goroutine
open Goroutine

def lift {α : Type*} : Except Panic α → Except Fault α
  | .error p => .error (.panic p)
  | .ok a => .ok a

section Methods
variable (mutex : Mutex)

def size : Goroutine F → Except Fault ℕ × Goroutine F :=
  under mutex .RLock .RUnlock fun t => (.ok t.index.nodes.length,t)

def greedyClosest (q : List F) (start : Bytes) (layer : ℕ) : Goroutine F → Except Fault Bytes × Goroutine F :=
  under mutex .RLock .RUnlock fun t => (lift (t.index.greedyClosestLocked score q start layer),t)

def searchLayer (q : List F) (entry : Bytes) (ef : ℤ) (layer : ℕ) :
    Goroutine F → Except Fault (List Bytes) × Goroutine F :=
  under mutex .RLock .RUnlock fun t => (lift (t.index.searchLayerLocked score q entry ef layer),t)

def descend (q : List F) (l : ℕ) : ℕ → Bytes → Goroutine F → Except Fault Bytes × Goroutine F
  | 0,curr,t => (.ok curr,t)
  | n+1,curr,t =>
    match greedyClosest score mutex q curr (l+n+1) t with
    | (.error f,t) => (.error f,t)
    | (.ok curr,t) => descend q l n curr t

def appendLink (h : HNSWIndex F) (id : Bytes) (lc : ℕ) (nb : Bytes) : HNSWIndex F :=
  { h with nodes := h.nodes.update id fun node => { node with layers := node.layers.modify lc (· ++ [nb]) } }

/-- The links of a new node on layer `lc`, and the links back to it from the neighbours that have
fewer than `m`. -/
def linkNeighbours (id : Bytes) (lc : ℕ) : List Bytes → HNSWIndex F → Except Fault Unit × HNSWIndex F
  | [],h => (.ok (),h)
  | nb::nbs,h =>
    if nb = id then linkNeighbours id lc nbs h
    else
      let h := h.appendLink id lc nb
      match h.neighboursAt lc nb with
      | .error p => (.error (.panic p),h)
      | .ok links => linkNeighbours id lc nbs (if links.length < h.m then h.appendLink nb lc id else h)

/-- The layers below `lc`, from the top. -/
def connect (q : List F) (id : Bytes) : ℕ → Bytes → Goroutine F → Except Fault Unit × Goroutine F
  | 0,_,t => (.ok (),t)
  | lc+1,curr,t =>
    match searchLayer score mutex q curr (t.index.m*2) lc t with
    | (.error f,t) => (.error f,t)
    | (.ok neighbours,t) =>
      match linkNeighbours id lc neighbours t.index,neighbours with
      | (.error f,h),_ => (.error f,{ t with index := h })
      | (.ok _,h),[] => (.error (.panic .indexOutOfRange),{ t with index := h })
      | (.ok _,h),curr::_ => connect q id lc curr { t with index := h }

def insertNode (h : HNSWIndex F) (id : Bytes) (vec : List F) (l : ℕ) : HNSWIndex F :=
  { h with nodes := h.nodes.set id ⟨vec,List.replicate (l+1) []⟩ }

/-- The end of `add`: a node above all others becomes the entry. -/
def raiseEntry (id : Bytes) (l : ℕ) : Except Fault Unit × Goroutine F → Except Fault Unit × Goroutine F
  | (.error f,t) => (.error f,t)
  | (.ok _,t) =>
    if t.index.maxLayer<l then (.ok (),{ t with index := { t.index with entry := id, maxLayer := l } })
      else (.ok (),t)

def addLocked (id : Bytes) (vec : List F) (l : ℕ) (t : Goroutine F) : Except Fault Unit × Goroutine F :=
  let h := t.index.insertNode id vec l
  if h.entry = [] then (.ok (),{ t with index := { h with entry := id, maxLayer := l } })
  else
    match descend score mutex vec l (h.maxLayer-l) h.entry { t with index := h } with
    | (.error f,t) => (.error f,t)
    | (.ok curr,t) => raiseEntry id l (connect score mutex vec id (l+1) curr t)

/-- `l` is what `randomLayer` draws. -/
def add (id : Bytes) (vec : List F) (l : Fin 9) (t : Goroutine F) : Except Fault Unit × Goroutine F :=
  if vec.length ≠ t.index.dim then (.ok (),t)
  else under mutex .Lock .Unlock (addLocked score mutex id vec l) t

/-- The key at which an iteration over the map begins; `pick` stands for the choice that the runtime makes. -/
def pickedKey (nodes : Directory Bytes (HnswNode F)) (pick : ℕ) : Option Bytes := nodes.names[pick % nodes.length]?

def deleteLocked (h : HNSWIndex F) (id : Bytes) (pick : ℕ) : HNSWIndex F :=
  let nodes := h.nodes.unlink id
  { h with
    nodes := nodes
    entry := if h.entry = id then (pickedKey nodes pick).getD h.entry else h.entry }

def delete (id : Bytes) (pick : ℕ) : Goroutine F → Except Fault Unit × Goroutine F :=
  under mutex .Lock .Unlock fun t => (.ok (),{ t with index := t.index.deleteLocked id pick })

def clearLocked (h : HNSWIndex F) (pre : Bytes) : HNSWIndex F :=
  { h with nodes := h.nodes.filter fun node => ¬ pre.isPrefixOf node.1 }

def clearByPrefix (pre : Bytes) : Goroutine F → Except Fault ℕ × Goroutine F :=
  under mutex .Lock .Unlock fun t =>
    (.ok (t.index.nodes.countP fun node => pre.isPrefixOf node.1),{ t with index := t.index.clearLocked pre })

def topK (query : List F) (k : ℤ) : Goroutine F → Except Fault (List (Hit S)) × Goroutine F :=
  under mutex .RLock .RUnlock fun t => (lift (t.index.topKLocked score query (if k ≤ 0 then 5 else k)),t)

def exportVectors : Goroutine F → Except Fault (Directory Bytes (List F)) × Goroutine F :=
  under mutex .RLock .RUnlock fun t => (.ok (t.index.nodes.map fun node => (node.1,node.2.vec)),t)

def saveSnapshot : Goroutine F → Except Fault (Directory Bytes (List F)) × Goroutine F := exportVectors mutex

def saveSnapshotPrefix (pre : Bytes) (t : Goroutine F) : Except Fault (Directory Bytes (List F)) × Goroutine F :=
  match exportVectors mutex t with
  | (.error f,t) => (.error f,t)
  | (.ok all,t) => (.ok (all.filter fun v => pre.isPrefixOf v.1),t)

/-- The vectors of a snapshot file in the order of the iteration, each with its layer draw. A file that
cannot be read leaves the index alone. -/
def mergeSnapshot (vectors : List (Bytes × List F × Fin 9)) (t : Goroutine F) : Except Fault Unit × Goroutine F :=
  match vectors with
  | [] => (.ok (),t)
  | (id,vec,l)::vectors =>
    match add score mutex id vec l t with
    | (.error f,t) => (.error f,t)
    | (.ok _,t) => mergeSnapshot vectors t

end Methods

/-- The public methods. -/
inductive Operation (F : Type*)
  | dim
  | size
  | add (id : Bytes) (vec : List F) (l : Fin 9)
  | delete (id : Bytes) (pick : ℕ)
  | clearByPrefix (pre : Bytes)
  | topK (query : List F) (k : ℤ)
  | saveSnapshot
  | saveSnapshotPrefix (pre : Bytes)
  | mergeSnapshot (vectors : List (Bytes × List F × Fin 9))

def discard {α : Type*} : Except Fault α × Goroutine F → Except Fault Unit × Goroutine F
  | (.error f,t) => (.error f,t)
  | (.ok _,t) => (.ok (),t)

def perform (mutex : Mutex) (t : Goroutine F) : Operation F → Except Fault Unit × Goroutine F
  | .dim => (.ok (),t)
  | .size => discard (size mutex t)
  | .add id vec l => add score mutex id vec l t
  | .delete id pick => delete mutex id pick t
  | .clearByPrefix pre => discard (clearByPrefix mutex pre t)
  | .topK query k => discard (topK score mutex query k t)
  | .saveSnapshot => discard (saveSnapshot mutex t)
  | .saveSnapshotPrefix pre => discard (saveSnapshotPrefix mutex pre t)
  | .mergeSnapshot vectors => mergeSnapshot score mutex vectors t

/-- The index after a method. A method that panics leaves what it has done; one that is blocked leaves
`mu` held, and no later method gets it. -/
def step (mutex : Mutex) (h : HNSWIndex F) (op : Operation F) : Option (HNSWIndex F) :=
  match perform score mutex ⟨h,[]⟩ op with
  | (.error .blocked,_) => none
  | (_,t) => some t.index

end HNSWIndex
end TitanKV.Services.Rag
