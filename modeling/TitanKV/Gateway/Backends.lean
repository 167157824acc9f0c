import Mathlib.Data.List.TakeWhile
import TitanKV.Minikv.Paths

/-! The services behind the gateway: which operation each of them runs for a method and a path. A parameter of a
route takes what comes before the next slash, also nothing if a slash follows at once. -/
namespace TitanKV.Gateway
open Minikv List Option

def slash : UInt8 := 47

def text (s : String) : Bytes := ascii s.toList

inductive Method
  | get
  | head
  | post
  | put
  | patch
  | delete
  | connect
  | options
  | trace
  | other (name : String)
  deriving DecidableEq,Repr

inductive Backend
  | dataService
  | metaService
  | observ
  | ragService
  deriving DecidableEq,Repr

/-- The handlers of the services. -/
inductive Operation
  | put
  | get
  | delete
  | scan
  | createCollection
  | listCollections
  | getCollection
  | updateCollection
  | deleteCollection
  | metrics
  | ingestDocument
  | listDocuments
  | getDocument
  | deleteDocument
  | retrieve
  | chat
  | getTask
  | resumeTask
  | evalCollection
  | saveSnapshot
  deriving DecidableEq,Repr

inductive Part
  | lit (s : String)
  | param
  deriving DecidableEq,Repr

structure Route where
  method : Method
  parts : List Part
  operation : Operation
  deriving DecidableEq,Repr

def Backend.routes : Backend → List Route
  | .dataService =>
    [⟨.post,[.lit "/api/data/kv"],.put⟩,⟨.get,[.lit "/api/data/kv"],.get⟩,⟨.delete,[.lit "/api/data/kv"],.delete⟩,
      ⟨.get,[.lit "/api/data/scan"],.scan⟩]
  | .metaService =>
    [⟨.post,[.lit "/api/meta/collections"],.createCollection⟩,⟨.get,[.lit "/api/meta/collections"],.listCollections⟩,
      ⟨.get,[.lit "/api/meta/collections/",.param],.getCollection⟩,
        ⟨.put,[.lit "/api/meta/collections/",.param],.updateCollection⟩,
      ⟨.delete,[.lit "/api/meta/collections/",.param],.deleteCollection⟩]
  | .observ => [⟨.get,[.lit "/api/observability/metrics"],.metrics⟩]
  | .ragService =>
    [⟨.post,[.lit "/api/rag/collections/",.param,.lit "/documents"],.ingestDocument⟩,
      ⟨.get,[.lit "/api/rag/collections/",.param,.lit "/documents"],.listDocuments⟩,
      ⟨.get,[.lit "/api/rag/collections/",.param,.lit "/documents/",.param],.getDocument⟩,
      ⟨.delete,[.lit "/api/rag/collections/",.param,.lit "/documents/",.param],.deleteDocument⟩,
      ⟨.post,[.lit "/api/rag/collections/",.param,.lit "/retrieve"],.retrieve⟩,
      ⟨.post,[.lit "/api/rag/collections/",.param,.lit "/chat"],.chat⟩,
      ⟨.get,[.lit "/api/rag/tasks/",.param],.getTask⟩,
      ⟨.post,[.lit "/api/rag/tasks/",.param,.lit "/resume"],.resumeTask⟩,
      ⟨.post,[.lit "/api/rag/collections/",.param,.lit "/eval"],.evalCollection⟩,
      ⟨.get,[.lit "/api/rag/index/snapshot"],.saveSnapshot⟩]

def fill : List Part → List Bytes → Bytes
  | [],_ => []
  | .lit s::ps,vs => text s ++ fill ps vs
  | .param::ps,vs => vs.headD [] ++ fill ps vs.tail

/-- How the router of the services matches a path: the parameters that it finds fill the route, and it finds those
that do, where a slash or the end is behind each of them. -/
class RouteTree where
  matchRoute : List Part → Bytes → Option (List Bytes)
  eq_fill_of_matchRoute : ∀ {ps path vs}, matchRoute ps path = some vs → path = fill ps vs ∧ ∀ v ∈ vs, slash ∉ v
  matchRoute_nil : matchRoute [] [] = some []
  matchRoute_lit_append : ∀ {s ps rest}, matchRoute (.lit s::ps) (text s ++ rest) = matchRoute ps rest
  matchRoute_param_append : ∀ {ps} {v rest : Bytes}, slash ∉ v → v++rest ≠ [] → rest = [] ∨ rest.head? = some slash →
    matchRoute (.param::ps) (v++rest) = (matchRoute ps rest).map (v::·)

export RouteTree (matchRoute eq_fill_of_matchRoute matchRoute_nil matchRoute_lit_append matchRoute_param_append)

def Backend.dispatch [RouteTree] (b : Backend) (method : Method) (path : Bytes) : Option Operation :=
  (b.routes.find? fun r => r.method = method ∧ (matchRoute r.parts path).isSome).map Route.operation

lemma exists_of_dispatch [RouteTree] {b : Backend} {method : Method} {path : Bytes} {op : Operation}
    (h : b.dispatch method path = some op) :
    ∃ r ∈ b.routes, r.method = method ∧ r.operation = op ∧ ∃ vs, path = fill r.parts vs ∧ ∀ v ∈ vs, slash ∉ v := by
  obtain ⟨r,hr,rfl⟩ := map_eq_some_iff.mp h
  have hfits := find?_some hr
  simp only [decide_eq_true_eq] at hfits
  obtain ⟨vs,hvs⟩ := isSome_iff_exists.mp hfits.2
  exact ⟨r,mem_of_find?_eq_some hr,hfits.1,rfl,vs,eq_fill_of_matchRoute hvs⟩

/-- The parts of the route along the path. -/
def walk : List Part → Bytes → Option (List Bytes)
  | [],path => if path = [] then some [] else none
  | .lit s::ps,path => if text s <+: path then walk ps (path.drop (text s).length) else none
  | .param::ps,path =>
    if path = [] then none
    else (walk ps (path.dropWhile (· ≠ slash))).map (path.takeWhile (· ≠ slash)::·)

section Walk
variable {ps : List Part} {path : Bytes} {vs : List Bytes}

lemma eq_fill_of_walk (h : walk ps path = some vs) : path = fill ps vs ∧ ∀ v ∈ vs, slash ∉ v := by
  induction ps generalizing path vs with
  | nil =>
    simp only [walk,ite_none_right_eq_some,some.injEq] at h
    obtain ⟨rfl,rfl⟩ := h
    simp [fill]
  | cons part ps ih =>
    cases part with
    | lit s =>
      simp only [walk,ite_none_right_eq_some] at h
      obtain ⟨⟨rest,rfl⟩,hrest⟩ := h
      simp only [drop_left] at hrest
      obtain ⟨rfl,hvs⟩ := ih hrest
      exact ⟨rfl,hvs⟩
    | param =>
      simp only [walk,ite_none_left_eq_some,map_eq_some_iff] at h
      obtain ⟨-,vs,hrest,rfl⟩ := h
      obtain ⟨heq,hvs⟩ := ih hrest
      refine ⟨?_,?_⟩
      · simp only [fill,headD_cons,tail_cons,← heq]
        exact (takeWhile_append_dropWhile ..).symm
      · intro v hv
        obtain rfl | hv := mem_cons.mp hv
        · intro hslash
          simpa using mem_takeWhile_imp hslash
        · exact hvs v hv

lemma walk_param_append {v rest : Bytes} (hv : slash ∉ v) (hne : v++rest ≠ [])
    (hrest : rest = [] ∨ rest.head? = some slash) :
    walk (.param::ps) (v++rest) = (walk ps rest).map (v::·) := by
  have hv' : ∀ b ∈ v, decide (b ≠ slash) = true := fun b hb => decide_eq_true fun h => hv (h ▸ hb)
  have hstop : rest.takeWhile (fun b => decide (b ≠ slash)) = [] ∧
      rest.dropWhile (fun b => decide (b ≠ slash)) = rest := by
    cases rest with
    | nil => simp
    | cons b rest =>
      have hb : b = slash := by simpa using hrest
      simp [hb]
  rw [walk,if_neg hne,takeWhile_append_of_pos hv',dropWhile_append_of_pos hv',hstop.1,hstop.2,append_nil]

instance : RouteTree where
  matchRoute := walk
  eq_fill_of_matchRoute := eq_fill_of_walk
  matchRoute_nil := rfl
  matchRoute_lit_append := by simp [walk]
  matchRoute_param_append := walk_param_append

end Walk
end TitanKV.Gateway
