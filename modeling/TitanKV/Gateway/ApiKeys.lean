import TitanKV.Gateway.Router
import TitanKV.Services.Auth.ApiKeys

/-! The life of an API key across the gateway and the auth service. The gateway knows who asks for a key, but its
client only copies the headers of the request, and the auth service has no middleware that would put a user into the
context. -/
namespace TitanKV.Gateway
open Minikv HandlerChain TitanKV.Services.Auth Option Runs

/-- `Client.VerifyAPIKey`: the binding on the other side refuses an empty key. -/
def verifyKey (hash : String → String) (a : Accounts) (key : String) : Option (String × String) :=
  if key = "" then none else a.verifyAPIKey hash key

def issueAPIKeyHandler : Handler Exchange := fun _ c =>
  some { c with data := { c.data with proxied := c.data.proxied ++ ["/api/auth/apikey"] } }

def issueRoute [Engine Exchange] (verdict : Verdict) : Option Exchange :=
  (HandlerChain.serve [authMW verdict,rbac .apiKeyIssue,issueAPIKeyHandler]
    { method := .post, path := text "/api/auth/apikey" }).map Context.data

/-- A key that was handed out: its text and id, the user who asked for it, its lifetime in seconds and the time. -/
structure Issued where
  plain : String
  id : String
  userID : String
  ttl : ℤ
  time : Time
  deriving DecidableEq,Repr

def handedOut (userID : String) (now : Time) :
    Except String IssueAPIKeyRequest → Except Failure IssueReply → List Issued
  | .ok req,.ok reply => [⟨reply.apiKey,reply.id,userID,req.ttl,now⟩]
  | _,_ => []

/-- The service and what the callers know: the keys that were handed out and the ids that were revoked. -/
structure KeySystem where
  accounts : Accounts
  issued : List Issued := []
  revoked : List String := []

inductive KeyEvent
  | register (body : Except String RegisterRequest) (hashed : Option String) (id : String)
  | issue (rdb : Option Redis) (req : Request) (body : Except String IssueAPIKeyRequest) (drawn : Option Drawn)
  | revoke (id : String)
  | updateRole (id role : String)
  | advance (d : ℕ)

namespace KeySystem

section Runs
variable [AuthLibraries] [Engine Exchange] (hash : String → String) (secret : String)

def new : KeySystem := { accounts := Accounts.new }

def verdict (s : KeySystem) (rdb : Option Redis) (req : Request) : Verdict :=
  auth ⟨secret,rdb,some (verifyKey hash s.accounts)⟩ s.accounts.now s.accounts.now req

def issue (s : KeySystem) (userID : String) (body : Except String IssueAPIKeyRequest) (drawn : Option Drawn) :
    Option KeySystem :=
  (s.accounts.step hash (.issueAPIKey none body drawn)).map fun a =>
    { s with
      accounts := a
      issued := s.issued ++ handedOut userID s.accounts.now body (s.accounts.issueAPIKey hash none drawn body).1 }

def step (s : KeySystem) : KeyEvent → Option KeySystem
  | .register body hashed id =>
    (s.accounts.step hash (.register body hashed id)).map fun a => { s with accounts := a }
  | .issue rdb req body drawn =>
    (issueRoute (s.verdict hash secret rdb req)).bind fun x =>
      if x.proxied = [] then some s else s.issue hash (x.userID.getD "") body drawn
  | .revoke id =>
    (s.accounts.step hash (.revoke id)).map fun a =>
      { s with accounts := a, revoked := if (s.accounts.revoke id).isOk then s.revoked++[id] else s.revoked }
  | .updateRole id role => (s.accounts.step hash (.updateRole id role)).map fun a => { s with accounts := a }
  | .advance d => (s.accounts.step hash (.advance d)).map fun a => { s with accounts := a }

/-- The key was handed out to the user, was not revoked and is not past its lifetime. -/
def Live (s : KeySystem) (plain userID : String) : Prop :=
  ∃ k ∈ s.issued, k.plain = plain ∧ k.userID = userID ∧ k.id ∉ s.revoked ∧
    (k.ttl = 0 ∨ (s.accounts.now : ℤ)≤k.time+k.ttl*second)

instance (s : KeySystem) (plain userID : String) : Decidable (s.Live plain userID) :=
  inferInstanceAs (Decidable (∃ k ∈ s.issued, _))

/-- A request with the key is admitted exactly for the user of a live key, with the role the user has now. -/
def Honoured (s : KeySystem) (rdb : Option Redis) (header plain : String) : Prop :=
  ∀ userID role method, s.verdict hash secret rdb ⟨.other header,plain⟩ = .admitted userID role method ↔
    method = .apikey ∧ s.Live plain userID ∧ (s.accounts.users.findByID userID).map User.role = some role

variable {hash secret} {s s' : KeySystem}

lemma accounts_step {e : KeyEvent} (hstep : s.step hash secret e = some s') :
    s'.accounts = s.accounts ∨ ∃ c, s.accounts.step hash c = some s'.accounts ∧
      ∀ userID body drawn, c = .issueAPIKey userID body drawn → userID = none := by
  cases e with
  | issue rdb req body drawn =>
    obtain ⟨x,-,hx⟩ := bind_eq_some_iff.mp hstep
    split_ifs at hx
    · cases hx
      exact Or.inl rfl
    · obtain ⟨a,ha,rfl⟩ := map_eq_some_iff.mp hx
      exact Or.inr ⟨_,ha,fun _ _ _ heq => by cases heq; rfl⟩
  | register body hashed id =>
    obtain ⟨a,ha,rfl⟩ := map_eq_some_iff.mp hstep
    exact Or.inr ⟨_,ha,by simp⟩
  | revoke id =>
    cases hstep
    exact Or.inr ⟨.revoke id,rfl,by simp⟩
  | updateRole id role =>
    cases hstep
    exact Or.inr ⟨.updateRole id role,rfl,by simp⟩
  | advance d =>
    cases hstep
    exact Or.inr ⟨.advance d,rfl,by simp⟩

def Unowned (s : KeySystem) : Prop := s.accounts.Unowned

lemma unowned_step {e : KeyEvent} (h : s.Unowned) (hstep : s.step hash secret e = some s') : s'.Unowned := by
  obtain heq | ⟨c,hc,hnobody⟩ := accounts_step hstep
  · unfold Unowned
    rw [heq]
    exact h
  · exact Accounts.unowned_step hc hnobody h

lemma unowned_run {es : List KeyEvent} (hrun : run (step hash secret) new es = some s) : s.Unowned := by
  have hnew : new.Unowned := ⟨fun _ h => (by cases h),rfl⟩
  exact invariant (fun _ _ _ h (_ : True) hstep => unowned_step h hstep) (meets_of_forall fun _ _ _ => trivial)
    hrun hnew

omit [Engine Exchange] in
lemma verdict_of_unowned (h : s.Unowned) (rdb : Option Redis) (header plain : String) :
    s.verdict hash secret rdb ⟨.other header,plain⟩ = .refused "unauthorized" := by
  have hkey : verifyKey hash s.accounts plain = none := by
    unfold verifyKey
    split_ifs
    · rfl
    · exact Accounts.verifyAPIKey_of_unowned h
  simp [verdict,auth,authenticateKey,hkey]

/-- However the keys came about, a key is honoured only if it is not a live key of a registered user. -/
theorem honoured_iff {es : List KeyEvent} (hrun : run (step hash secret) new es = some s) (rdb : Option Redis)
    (header plain : String) :
    s.Honoured hash secret rdb header plain ↔ ¬∃ userID, s.Live plain userID ∧
      (s.accounts.users.findByID userID).isSome = true := by
  have hrefused := @verdict_of_unowned _ hash secret s (unowned_run hrun) rdb header plain
  unfold Honoured
  simp only [hrefused,reduceCtorEq,false_iff]
  constructor
  · rintro h ⟨userID,hlive,hsome⟩
    obtain ⟨u,hu⟩ := isSome_iff_exists.mp hsome
    exact h userID u.role .apikey ⟨rfl,hlive,by rw [hu]; rfl⟩
  · rintro h userID role method ⟨-,hlive,hrole⟩
    obtain ⟨u,hu,-⟩ := map_eq_some_iff.mp hrole
    exact h ⟨userID,hlive,by rw [hu]; rfl⟩

end Runs

def firstKey : List KeyEvent :=
  [.register (.ok { username := "root", password := "password", role := "admin" }) (some "hash") "1",
    .issue none ⟨.bearer ((JWTManager.new "secret").signAccess "1" "admin" ⟨"t1",0,0,by decide⟩),""⟩
      (.ok { name := "key", ttl := 0 })
      (some ⟨"00","k1"⟩)]

/-- A key that was revoked is refused, as it should be. -/
theorem honoured_of_revoked :
    (run (step id "secret") new (firstKey++[.revoke "k1"])).isSome = true ∧
      ∀ s, run (step id "secret") new (firstKey++[.revoke "k1"]) = some s →
        s.Honoured id "secret" none "" "tk_live_00" := by
  refine ⟨by decide +kernel,fun s hs => (honoured_iff hs none "" "tk_live_00").mpr ?_⟩
  have hrevoked : (run (step id "secret") new (firstKey++[.revoke "k1"])).all
      (fun s => s.issued.all fun k => k.id ∈ s.revoked) = true := by
    decide +kernel
  rw [hs,all_some,List.all_eq_true] at hrevoked
  rintro ⟨userID,⟨k,hk,-,-,hlive,-⟩,-⟩
  exact hlive (by simpa using hrevoked k hk)

/-- The key that the first user got is refused at once. -/
theorem live_key_refused :
    (run (step id "secret") new firstKey).any (fun s =>
      s.Live "tk_live_00" "1" ∧ (s.accounts.users.findByID "1").map User.role = some "admin" ∧
        s.verdict id "secret" none ⟨.other "","tk_live_00"⟩ = .refused "unauthorized") = true := by
  decide +kernel

end KeySystem
end TitanKV.Gateway
