import TitanKV.Gateway.Auth
import TitanKV.Gateway.Backends
import TitanKV.Library.HandlerChain

/-! The routes of the gateway that are forwarded to a service: authentication, the check of a permission, and the
reverse proxy. The permission is chosen by the method and, for the RAG service, by the end of the path. -/
namespace TitanKV.Gateway
open Minikv HandlerChain List Option Backend Context

inductive Permission
  | kvGet
  | kvPut
  | kvDelete
  | collectionCreate
  | collectionDelete
  | userManage
  | apiKeyIssue
  | ragIngest
  | ragQuery
  deriving DecidableEq,Repr

def rolePerms (role : String) : List Permission :=
  if role = "admin" then
    [.kvGet,.kvPut,.kvDelete,.collectionCreate,.collectionDelete,.userManage,.apiKeyIssue,.ragIngest,.ragQuery]
  else if role = "writer" then [.kvGet,.kvPut,.collectionCreate,.ragIngest,.ragQuery]
  else if role = "reader" then [.kvGet,.ragQuery]
  else []

def roleHasPermission (role : String) (perm : Permission) : Bool := (rolePerms role).any (· = perm)

/-- A request that the proxy sends on, with the headers that it sets. -/
structure Forward where
  backend : Backend
  method : Method
  path : Bytes
  userID : Option String
  role : Option String
  deriving DecidableEq,Repr

structure ErrorReply where
  status : ℕ
  error : String
  required : Option Permission := none
  role : Option String := none
  deriving DecidableEq,Repr

/-- A request on its way through the chain: the keys of its context, what was sent on to the services and to the
paths of the auth service, and what was answered. -/
structure Exchange where
  method : Method
  path : Bytes
  userID : Option String := none
  role : Option String := none
  forwarded : List Forward := []
  proxied : List String := []
  replies : List ErrorReply := []
  deriving DecidableEq,Repr

def abortWith (c : Context Exchange) (reply : ErrorReply) : Context Exchange :=
  { c.abort with data := { c.data with replies := c.data.replies ++ [reply] } }

def authMW (verdict : Verdict) : Handler Exchange := fun next c =>
  match verdict with
  | .refused error => some (abortWith c { status := 401, error := error })
  | .admitted userID role _ => next { c with data := { c.data with userID := some userID, role := some role } }

def rbac (requiredPerm : Permission) : Handler Exchange := fun next c =>
  match c.data.role with
  | none => some (abortWith c { status := 403, error := "no role in context" })
  | some role =>
    if roleHasPermission role requiredPerm then next c
    else
      some (abortWith c
        { status := 403, error := "permission denied", required := some requiredPerm, role := some role })

/-- The common part of the two checks: `RBAC` runs the rest of the chain itself, and `Next` is called again behind
it. -/
def guarded (perm : Exchange → Option Permission) : Handler Exchange := fun next c =>
  ((perm c.data).elim (some c) fun p => rbac p next c).bind fun c => if c.isAborted then some c else next c

def kvPermission : Method → Option Permission
  | .get => some .kvGet
  | .post => some .kvPut
  | .put => some .kvPut
  | .delete => some .kvDelete
  | _ => none

def kvRBAC : Handler Exchange := guarded fun x => kvPermission x.method

def ragPermission (method : Method) (path : Bytes) : Permission :=
  if text "/retrieve" <:+ path ∨ text "/chat" <:+ path then .ragQuery
  else
    match method with
    | .get => .ragQuery
    | .head => .ragQuery
    | .options => .ragQuery
    | .post => .ragIngest
    | .put => .ragIngest
    | .patch => .ragIngest
    | .delete => .ragIngest
    | _ => .ragQuery

def ragRBAC : Handler Exchange := guarded fun x => some (ragPermission x.method x.path)

def Backend.target : Backend → Bytes
  | .dataService => text "/api/data"
  | .metaService => text "/api/meta"
  | .observ => text "/api/observability"
  | .ragService => text "/api/rag"

/-- The proxies in the order in which a range over their map visits them. -/
structure Proxies where
  order : List Backend
  complete : ∀ b, b ∈ order

def handle (proxies : Proxies) : Handler Exchange := fun _ c =>
  match proxies.order.find? fun b => b.target <+: c.data.path with
  | none =>
    some { c with
      data := { c.data with replies := c.data.replies ++ [{ status := 404, error := "no upstream for path" }] } }
  | some b =>
    some { c with
      data := { c.data with
        forwarded := c.data.forwarded ++ [⟨b,c.data.method,c.data.path,c.data.userID,c.data.role⟩] } }

def Method.any : Method → Bool
  | .other _ => false
  | _ => true

def group (path : Bytes) : Option Backend :=
  [.dataService,.metaService,.observ,.ragService].find? fun b => path = b.target ∨ b.target ++ [slash] <+: path

def chain (proxies : Proxies) (verdict : Verdict) : Backend → List (Handler Exchange)
  | .ragService => [authMW verdict,ragRBAC,handle proxies]
  | _ => [authMW verdict,kvRBAC,handle proxies]

/-- What becomes of a request under one of the forwarded groups; other paths and methods have no route. -/
def route [Engine Exchange] (proxies : Proxies) (verdict : Verdict) (method : Method) (path : Bytes) :
    Option Exchange :=
  match group path with
  | none => some { method := method, path := path, replies := [{ status := 404, error := "404 page not found" }] }
  | some b =>
    if method.any then (HandlerChain.serve (chain proxies verdict b) { method := method, path := path }).map data
    else some { method := method, path := path, replies := [{ status := 404, error := "404 page not found" }] }

/-- What the permission of an operation is. -/
def Operation.required : Operation → Permission
  | .put => .kvPut
  | .createCollection => .kvPut
  | .updateCollection => .kvPut
  | .delete => .kvDelete
  | .deleteCollection => .kvDelete
  | .get => .kvGet
  | .scan => .kvGet
  | .listCollections => .kvGet
  | .getCollection => .kvGet
  | .metrics => .kvGet
  | .ingestDocument => .ragIngest
  | .deleteDocument => .ragIngest
  | .resumeTask => .ragIngest
  | .saveSnapshot => .ragIngest
  | .listDocuments => .ragQuery
  | .getDocument => .ragQuery
  | .retrieve => .ragQuery
  | .chat => .ragQuery
  | .getTask => .ragQuery
  | .evalCollection => .ragQuery

/-- The permission for a request that the service runs no operation for. -/
def Backend.least : Backend → Permission
  | .ragService => .ragQuery
  | _ => .kvGet

def Backend.required [RouteTree] (b : Backend) (method : Method) (path : Bytes) : Permission :=
  (b.dispatch method path).elim b.least Operation.required

/-- Whatever is sent on belongs to a role that has the permission for the operation which the service runs. -/
def Authorised [Engine Exchange] [RouteTree] (method : Method) (path : Bytes) : Prop :=
  ∀ proxies verdict x, route proxies verdict method path = some x → ∀ f ∈ x.forwarded,
    ∃ userID role m, verdict = .admitted userID role m ∧
      roleHasPermission role (f.backend.required f.method f.path) = true

def documentPath (col doc : Bytes) : Bytes := text "/api/rag/collections/" ++ col ++ text "/documents/" ++ doc

/-- The methods under the KV groups are those that a permission is checked for; the snapshot route and the deletion
of documents with the names of the two query routes are left out. -/
def Agreed (method : Method) (path : Bytes) : Prop :=
  match group path with
  | none => True
  | some .ragService =>
    ¬(method = .get ∧ path = text "/api/rag/index/snapshot") ∧
      ¬(method = .delete ∧ ∃ col, slash ∉ col ∧
        (path = documentPath col (text "retrieve") ∨ path = documentPath col (text "chat")))
  | some _ => method ∉ [.head,.patch,.options,.connect,.trace]

/-- A permission that comes with another one in the three roles comes with it in every role. -/
lemma roleHasPermission_imp {role : String} {p q : Permission}
    (h : ∀ r ∈ ["admin","writer","reader"], roleHasPermission r p = true → roleHasPermission r q = true)
    (hp : roleHasPermission role p = true) : roleHasPermission role q = true := by
  by_cases hrole : role ∈ ["admin","writer","reader"]
  · exact h role hrole hp
  · simp only [mem_cons,not_mem_nil,or_false,not_or] at hrole
    simp [roleHasPermission,rolePerms,hrole] at hp

section Routing
variable (proxies : Proxies) {verdict : Verdict} {method : Method} {path : Bytes} {b : Backend}

lemma target_unique {b' : Backend} (h : b.target <+: path) (h' : b'.target <+: path) : b = b' := by
  have hcases : b.target <+: b'.target ∨ b'.target <+: b.target := prefix_or_prefix_of_prefix h h'
  revert hcases
  cases b <;> cases b' <;> decide

lemma find_proxy (h : b.target <+: path) : (proxies.order.find? fun b => b.target <+: path) = some b := by
  cases hfind : proxies.order.find? fun b => decide (b.target <+: path) with
  | none => simpa [h] using find?_eq_none.mp hfind b (proxies.complete b)
  | some b' =>
    have hb' := find?_some hfind
    rw [target_unique h (of_decide_eq_true hb')]

lemma target_of_group (h : group path = some b) : b.target <+: path := by
  have hb := find?_some h
  simp only [decide_eq_true_eq] at hb
  obtain rfl | hb := hb
  · exact prefix_rfl
  · exact (prefix_append _ _).trans hb

/-- The permission that the gateway checks. -/
def Backend.checked (b : Backend) (method : Method) (path : Bytes) : Option Permission :=
  match b with
  | .ragService => some (ragPermission method path)
  | _ => kvPermission method

lemma chain_eq (verdict : Verdict) (b : Backend) :
    chain proxies verdict b = [authMW verdict,guarded fun x => b.checked x.method x.path,handle proxies] := by
  cases b <;> rfl

def Exchange.sent (x : Exchange) (b : Backend) : Exchange :=
  { x with forwarded := x.forwarded ++ [⟨b,x.method,x.path,x.userID,x.role⟩] }

variable {hs : List (Handler Exchange)}

lemma loop_handle [Engine Exchange] {fuel : ℕ} {x : Exchange} (hhandle : hs[2]? = some (handle proxies))
    (hlength : hs.length = 3) (htarget : b.target <+: x.path) : loop hs (fuel+2) ⟨2,x⟩ = some ⟨3,x.sent b⟩ := by
  have hrun : handle proxies (fun c => loop hs (fuel+1) c.advance) ⟨2,x⟩ = some ⟨2,x.sent b⟩ := by
    simp [handle,find_proxy proxies htarget,Exchange.sent]
  exact loop_of_some hhandle hrun (by simp [hlength])

lemma loop_guarded [Engine Exchange] (fuel : ℕ) {perm : Exchange → Option Permission} {x : Exchange} {role : String}
    (hguarded : hs[1]? = some (guarded perm)) (hhandle : hs[2]? = some (handle proxies)) (hlength : hs.length = 3)
    (htarget : b.target <+: x.path) (hrole : x.role = some role) :
    ∃ c, loop hs (fuel+3) ⟨1,x⟩ = some c ∧ hs.length≤c.index+1 ∧
      c.data.forwarded = if (perm x).all (roleHasPermission role) then (x.sent b).forwarded else x.forwarded := by
  have hnext : loop hs (fuel+2) (advance ⟨1,x⟩) = some ⟨3,x.sent b⟩ := loop_handle proxies hhandle hlength htarget
  have hagain (y : Exchange) : loop hs (fuel+2) (advance ⟨3,y⟩) = some ⟨4,y⟩ :=
    loop_of_length_le (by simp [hlength,advance])
  cases hperm : perm x with
  | none =>
    have hrun : guarded perm (fun c => loop hs (fuel+2) c.advance) ⟨1,x⟩ = some ⟨3,x.sent b⟩ := by
      simp [guarded,hperm,hnext,isAborted,abortIndex]
    exact ⟨_,loop_of_some hguarded hrun (by simp [hlength]),by simp [hlength,advance],by simp [advance]⟩
  | some p =>
    cases hhas : roleHasPermission role p with
    | true =>
      have hrun : guarded perm (fun c => loop hs (fuel+2) c.advance) ⟨1,x⟩ = some ⟨4,x.sent b⟩ := by
        simp [guarded,hperm,rbac,hrole,hhas,hnext,hagain,isAborted,abortIndex]
      exact ⟨_,loop_of_some hguarded hrun (by simp [hlength]),by simp [hlength,advance],by simp [hhas,advance]⟩
    | false =>
      have hrun : ∃ c, guarded perm (fun c => loop hs (fuel+2) c.advance) ⟨1,x⟩ = some c ∧ c.index = abortIndex ∧
          c.data.forwarded = x.forwarded := by
        simp [guarded,hperm,rbac,hrole,hhas,abortWith,abort,isAborted]
      obtain ⟨c,hc,hindex,hforwarded⟩ := hrun
      exact ⟨_,loop_of_some hguarded hc
        (by simp [hlength,hindex,abortIndex]),by simp [hlength,hindex,advance,abortIndex],
        by simp [hhas,hforwarded,advance]⟩

/-- A request is sent on once, to the service of its group, if the role has the permission that is checked. -/
theorem forwarded_of_admitted [Engine Exchange] (hgroup : group path = some b) (hany : method.any = true)
    (userID role : String) (m : AuthMethod) :
    (route proxies (.admitted userID role m) method path).map Exchange.forwarded =
      some (if (b.checked method path).all (roleHasPermission role) then [⟨b,method,path,some userID,some role⟩]
        else []) := by
  have hchain := chain_eq proxies (.admitted userID role m) b
  obtain ⟨c,hc,hdone,hforwarded⟩ := loop_guarded proxies 0
    (x := { method := method, path := path, userID := some userID, role := some role })
    (congrArg (·[1]?) hchain) (congrArg (·[2]?) hchain) (congrArg length hchain) (target_of_group hgroup) rfl
  have hserve : HandlerChain.serve (chain proxies (.admitted userID role m) b) { method := method, path := path } =
      some c.advance := by
    rw [HandlerChain.serve,congrArg length hchain]
    exact loop_of_some (congrArg (·[0]?) hchain) hc hdone
  simp [route,hgroup,hany,hserve,advance,hforwarded,Exchange.sent]

lemma forwarded_of_refused [Engine Exchange] (error : String) (method : Method) (path : Bytes) :
    (route proxies (.refused error) method path).map Exchange.forwarded = some [] := by
  unfold route
  cases hgroup : group path with
  | none => simp
  | some b =>
    have hchain := chain_eq proxies (.refused error) b
    have hserve (x : Exchange) : HandlerChain.serve (chain proxies (.refused error) b) x =
        some (abortWith ⟨0,x⟩ { status := 401, error := error }).advance := by
      rw [HandlerChain.serve,congrArg length hchain]
      exact loop_of_some (congrArg (·[0]?) hchain) rfl (by simp [hchain,abortWith,abort,abortIndex])
    split_ifs
    · simp [hserve,abortWith,abort,advance]
    · simp

lemma authorised_iff [Engine Exchange] [RouteTree] (hgroup : group path = some b) (hany : method.any = true) :
    Authorised method path ↔
      ∀ role, (b.checked method path).all (roleHasPermission role) = true →
        roleHasPermission role (b.required method path) = true := by
  refine ⟨fun h role hchecked => ?_,fun h proxies verdict x hroute f hf => ?_⟩
  · let proxies : Proxies := ⟨[.dataService,.metaService,.observ,.ragService],fun b => by cases b <;> decide⟩
    have hforwarded := forwarded_of_admitted proxies hgroup hany "" role .jwt
    obtain ⟨x,hroute,hx⟩ := map_eq_some_iff.mp hforwarded
    rw [if_pos hchecked] at hx
    obtain ⟨userID,role',m,heq,hhas⟩ := h proxies _ x hroute _ (by rw [hx]; exact mem_singleton_self _)
    cases heq
    exact hhas
  · cases verdict with
    | refused error =>
      have hforwarded := forwarded_of_refused proxies error method path
      simp_all
    | admitted userID role m =>
      have hforwarded := forwarded_of_admitted proxies hgroup hany userID role m
      rw [hroute,map_some,some.injEq] at hforwarded
      split_ifs at hforwarded with hchecked
      · rw [hforwarded,mem_singleton] at hf
        exact ⟨userID,role,m,rfl,by rw [hf]; exact h role hchecked⟩
      · simp [hforwarded] at hf

lemma authorised_of_no_route [Engine Exchange] [RouteTree] (h : group path = none ∨ method.any = false) :
    Authorised method path := by
  intro proxies verdict x hroute f hf
  unfold route at hroute
  split at hroute
  · cases hroute
    simp at hf
  · simp_all only [reduceCtorEq,false_or,Bool.false_eq_true,if_false,some.injEq]
    cases hroute
    simp at hf

end Routing

section Coverage
variable {method : Method} {path : Bytes} {b : Backend}

lemma kvPermission_of_dispatch [RouteTree] {op : Operation} (hb : b ≠ .ragService)
    (h : b.dispatch method path = some op) :
    kvPermission method = some op.required := by
  obtain ⟨r,hr,rfl,rfl,-⟩ := exists_of_dispatch h
  cases b with
  | ragService => exact absurd rfl hb
  | _ =>
    revert r
    simp [routes,kvPermission,Operation.required]

lemma kvGet_of_kvPermission {role : String} {p : Permission} (hp : kvPermission method = some p)
    (h : roleHasPermission role p = true) :
    roleHasPermission role .kvGet = true := by
  cases method <;> simp only [kvPermission,reduceCtorEq,some.injEq] at hp <;> subst hp
  all_goals exact roleHasPermission_imp (by decide) h

lemma kv_covered_iff [RouteTree] (hb : b ≠ .ragService) :
    (∀ role, (kvPermission method).all (roleHasPermission role) = true →
      roleHasPermission role (b.required method path) = true) ↔
      (kvPermission method).isSome = true := by
  cases hp : kvPermission method with
  | none =>
    have hnone (p : Permission) : roleHasPermission "" p = false := by cases p <;> decide
    simpa using ⟨"",hnone _⟩
  | some p =>
    simp only [all_some,isSome_some,iff_true]
    intro role h
    unfold required
    cases hop : b.dispatch method path with
    | none =>
      have hleast : b.least = .kvGet := by cases b <;> simp_all [least]
      simpa [hleast] using kvGet_of_kvPermission hp h
    | some op =>
      have hreq := kvPermission_of_dispatch hb hop
      rw [hp,some.injEq] at hreq
      simpa [← hreq] using h

lemma kv_authorised_iff [Engine Exchange] [RouteTree] (hb : b ≠ .ragService) (hgroup : group path = some b)
    (hany : method.any = true) :
    Authorised method path ↔ method ∉ [.head,.patch,.options,.connect,.trace] := by
  have hchecked : b.checked method path = kvPermission method := by cases b <;> first | rfl | exact absurd rfl hb
  rw [authorised_iff hgroup hany,hchecked,kv_covered_iff hb]
  cases method <;> simp_all [kvPermission,Method.any]

lemma ragPermission_cases (method : Method) (path : Bytes) :
    ragPermission method path = .ragQuery ∨ ragPermission method path = .ragIngest := by
  unfold ragPermission
  split_ifs
  · exact Or.inl rfl
  · cases method <;> simp

lemma rag_required_cases [RouteTree] (method : Method) (path : Bytes) :
    required .ragService method path = .ragQuery ∨ required .ragService method path = .ragIngest := by
  unfold required
  cases hop : dispatch .ragService method path with
  | none => exact Or.inl rfl
  | some op =>
    obtain ⟨r,hr,-,rfl,-⟩ := exists_of_dispatch hop
    revert r
    simp [routes,Operation.required]

lemma rag_covered_iff [RouteTree] :
    (∀ role, roleHasPermission role (ragPermission method path) = true →
        roleHasPermission role (required .ragService method path) = true) ↔
      ¬(ragPermission method path = .ragQuery ∧ required .ragService method path = .ragIngest) := by
  obtain hp | hp := ragPermission_cases method path <;>
    obtain hr | hr := rag_required_cases method path <;> simp only [hp,hr]
  · simp
  · simpa using ⟨"reader",by decide⟩
  · simpa using fun role => roleHasPermission_imp (by decide)
  · simp

lemma not_suffix_append {s t p : Bytes} (h : ¬s <:+ t) (h' : ¬t <:+ s) : ¬s <:+ p ++ t := fun hs =>
  (suffix_or_suffix_of_suffix hs (suffix_append p t)).elim h h'

lemma eq_of_slash_suffix {v w p : Bytes} (hv : slash ∉ v) (hw : slash ∉ w) (h : slash::w <:+ p ++ slash::v) :
    v = w := by
  obtain h | h := suffix_or_suffix_of_suffix h (suffix_append p _)
  · obtain h | h := suffix_cons_iff.mp h
    · exact (cons.inj h).2.symm
    · exact absurd (h.subset mem_cons_self) hv
  · obtain h | h := suffix_cons_iff.mp h
    · exact (cons.inj h).2
    · exact absurd (h.subset mem_cons_self) hw

lemma documentPath_eq (col doc : Bytes) :
    documentPath col doc = text "/api/rag/collections/" ++ col ++ text "/documents" ++ slash::doc := by
  have htext : text "/documents/" = text "/documents" ++ [slash] := by decide
  simp [documentPath,htext]

/-- Deleting a document is taken for a query if the document has the name of one of the two query routes. -/
lemma suffix_documentPath_iff {col doc : Bytes} (hdoc : slash ∉ doc) :
    (text "/retrieve" <:+ documentPath col doc ∨ text "/chat" <:+ documentPath col doc) ↔ doc = text "retrieve" ∨
      doc = text "chat" := by
  have hretrieve : text "/retrieve" = slash::text "retrieve" ∧ slash ∉ text "retrieve" := by decide
  have hchat : text "/chat" = slash::text "chat" ∧ slash ∉ text "chat" := by decide
  rw [documentPath_eq,hretrieve.1,hchat.1]
  refine ⟨?_,?_⟩
  · rintro (h | h)
    · exact Or.inl (eq_of_slash_suffix hdoc hretrieve.2 h)
    · exact Or.inr (eq_of_slash_suffix hdoc hchat.2 h)
  · rintro (rfl | rfl)
    · exact Or.inl (suffix_append _ _)
    · exact Or.inr (suffix_append _ _)

lemma dispatch_documentPath [RouteTree] {col doc : Bytes} (hcol : slash ∉ col) (hdoc : slash ∉ doc)
    (hne : doc ≠ []) :
    dispatch .ragService .delete (documentPath col doc) = some .deleteDocument := by
  have hlast : matchRoute [.param] doc = some [doc] := by
    simpa [matchRoute_nil] using @matchRoute_param_append _ [] _ _ hdoc (by simpa using hne) (Or.inl rfl)
  have hmatch : matchRoute [.lit "/api/rag/collections/",.param,.lit "/documents/",.param] (documentPath col doc) =
      some [col,doc] := by
    rw [documentPath,append_assoc,append_assoc,matchRoute_lit_append,matchRoute_param_append hcol]
    · rw [matchRoute_lit_append,hlast,map_some]
    · simp [text,ascii]
    · exact Or.inr (by simp [text,ascii]; decide)
  simp [dispatch,routes,hmatch]

lemma dispatch_snapshot [RouteTree] :
    dispatch .ragService .get (text "/api/rag/index/snapshot") = some .saveSnapshot := by
  have hother {s : String} (h : ¬text s <+: text "/api/rag/index/snapshot") (ps : List Part) :
      matchRoute (.lit s::ps) (text "/api/rag/index/snapshot") = none :=
    eq_none_iff_forall_ne_some.mpr fun vs hvs => h ⟨_,(eq_fill_of_matchRoute hvs).1.symm⟩
  have hmatch : matchRoute [.lit "/api/rag/index/snapshot"] (text "/api/rag/index/snapshot") = some [] := by
    simpa [matchRoute_nil] using @matchRoute_lit_append _ "/api/rag/index/snapshot" [] []
  have hcollections := @hother "/api/rag/collections/" (by decide)
  have htasks := @hother "/api/rag/tasks/" (by decide)
  simp [dispatch,routes,hmatch,hcollections,htasks]

lemma suffix_of_ragQuery (hmethod : method = .post ∨ method = .delete) (h : ragPermission method path = .ragQuery) :
    text "/retrieve" <:+ path ∨ text "/chat" <:+ path := by
  by_contra hsuffix
  obtain rfl | rfl := hmethod <;> simp [ragPermission,hsuffix] at h

lemma ragPermission_post_append {p t : Bytes}
    (h : ¬(text "/retrieve" <:+ t ∨ t <:+ text "/retrieve" ∨ text "/chat" <:+ t ∨ t <:+ text "/chat")) :
    ragPermission .post (p++t) ≠ .ragQuery := by
  intro hquery
  simp only [not_or] at h
  obtain hsuffix | hsuffix := suffix_of_ragQuery (Or.inl rfl) hquery
  · exact not_suffix_append h.1 h.2.1 hsuffix
  · exact not_suffix_append h.2.2.1 h.2.2.2 hsuffix

/-- The requests that only need the permission to query although they ingest. -/
lemma rag_gap_iff [RouteTree] :
    ragPermission method path = .ragQuery ∧ required .ragService method path = .ragIngest ↔
      (method = .get ∧ path = text "/api/rag/index/snapshot") ∨
      (method = .delete ∧ ∃ col, slash ∉ col ∧
        (path = documentPath col (text "retrieve") ∨ path = documentPath col (text "chat"))) := by
  refine ⟨fun ⟨hperm,hreq⟩ => ?_,?_⟩
  · unfold required at hreq
    cases hop : dispatch .ragService method path with
    | none => simp [hop,least] at hreq
    | some op =>
      rw [hop] at hreq
      obtain ⟨r,hr,rfl,rfl,vs,rfl,hvs⟩ := exists_of_dispatch hop
      simp only [routes,mem_cons,not_mem_nil,or_false] at hr
      obtain rfl | rfl | rfl | rfl | rfl | rfl | rfl | rfl | rfl | rfl := hr <;>
        simp only [Option.elim,Operation.required,reduceCtorEq] at hreq
      · simp only [fill,append_nil,← append_assoc] at hperm
        exact absurd hperm (ragPermission_post_append (by decide))
      · have hpath : fill [.lit "/api/rag/collections/",.param,.lit "/documents/",.param] vs =
            documentPath (vs.headD []) (vs.tail.headD []) := by
          simp [fill,documentPath]
        rw [hpath] at hperm ⊢
        have hslash (vs : List Bytes) (hvs : ∀ v ∈ vs, slash ∉ v) : slash ∉ vs.headD [] := by
          cases vs <;> simp_all
        have hdoc := (suffix_documentPath_iff (hslash vs.tail fun v hv => hvs v (mem_of_mem_tail hv))).mp
          (suffix_of_ragQuery (Or.inr rfl) hperm)
        refine Or.inr ⟨rfl,vs.headD [],hslash vs hvs,?_⟩
        exact hdoc.imp (fun h => by rw [h]) fun h => by rw [h]
      · simp only [fill,append_nil,← append_assoc] at hperm
        exact absurd hperm (ragPermission_post_append (by decide))
      · exact Or.inl ⟨rfl,by simp [fill]⟩
  · rintro (⟨rfl,rfl⟩ | ⟨rfl,col,hcol,hpath⟩)
    · exact ⟨by decide,by rw [required,dispatch_snapshot]; rfl⟩
    · have hwords : slash ∉ text "retrieve" ∧ slash ∉ text "chat" ∧ text "retrieve" ≠ [] ∧
        text "chat" ≠ [] := by decide
      obtain ⟨doc,hdoc,hslash,hne,rfl⟩ : ∃ doc, (doc = text "retrieve" ∨ doc = text "chat") ∧ slash ∉ doc ∧
        doc ≠ [] ∧ path = documentPath col doc := by
        obtain rfl | rfl := hpath
        · exact ⟨_,Or.inl rfl,hwords.1,hwords.2.2.1,rfl⟩
        · exact ⟨_,Or.inr rfl,hwords.2.1,hwords.2.2.2,rfl⟩
      refine ⟨?_,?_⟩
      · rw [ragPermission,if_pos ((suffix_documentPath_iff hslash).mpr hdoc)]
      · rw [required,dispatch_documentPath hcol hslash hne]
        rfl

/-- What is sent on is covered by a permission of the role exactly if the method and the path are not among those
where the check of the gateway and the routes of the services disagree. -/
theorem authorised_iff_agreed [Engine Exchange] [RouteTree] (method : Method) (path : Bytes) :
    Authorised method path ↔ Agreed method path := by
  unfold Agreed
  cases hgroup : group path with
  | none => simpa using authorised_of_no_route (Or.inl hgroup)
  | some b =>
    cases hany : method.any with
    | false =>
      refine iff_of_true (authorised_of_no_route (Or.inr hany)) ?_
      cases method <;> simp only [Method.any,Bool.true_eq_false] at hany
      cases b <;> simp
    | true =>
      cases b with
      | ragService =>
        simp only [authorised_iff hgroup hany,checked,all_some,rag_covered_iff,rag_gap_iff]
        exact not_or
      | _ => exact kv_authorised_iff (by decide) hgroup hany

end Coverage

/-- A role without any permission has `HEAD` sent on to the data service, and a reader saves the snapshot and deletes
a document with the name of a query route. -/
theorem forwarded_unchecked :
    ∃ proxies,
      (route proxies (.admitted "u" "" .jwt) .head (text "/api/data/kv")).map Exchange.forwarded =
          some [⟨.dataService,.head,text "/api/data/kv",some "u",some ""⟩] ∧
        roleHasPermission "" .kvGet = false ∧
        (route proxies (.admitted "u" "reader" .jwt) .get (text "/api/rag/index/snapshot")).map Exchange.forwarded =
          some [⟨.ragService,.get,text "/api/rag/index/snapshot",some "u",some "reader"⟩] ∧
        dispatch .ragService .get (text "/api/rag/index/snapshot") = some .saveSnapshot ∧
        (route proxies (.admitted "u" "reader" .jwt) .delete (text "/api/rag/collections/c/documents/chat")).map
          Exchange.forwarded =
          some [⟨.ragService,.delete,text "/api/rag/collections/c/documents/chat",some "u",some "reader"⟩] ∧
        dispatch .ragService .delete (text "/api/rag/collections/c/documents/chat") = some .deleteDocument ∧
        roleHasPermission "reader" .ragIngest = false :=
  ⟨⟨[.dataService,.metaService,.observ,.ragService],fun b => by cases b <;> decide⟩,by decide +kernel⟩

end TitanKV.Gateway
