import TitanKV.Library.Runs
import TitanKV.Services.Auth.Tokens

/-! The users and the API keys of the auth service. Both maps of the key store point to the same records, so a record
is known by its address. The hash of a key is a parameter, and what is drawn at random was not drawn before. -/
namespace TitanKV.Services.Auth
open List Option Directory

structure APIKeyRecord where
  id : String
  userID : String
  hash : String
  name : String
  createdAt : Time
  expiresAt : Option Time
  revoked : Bool
  deriving DecidableEq,Repr

/-- The maps hold addresses of `records`; a record is filed under its own id. -/
structure APIKeyStore where
  records : List APIKeyRecord
  byID : Directory String ℕ
  byHash : Directory String ℕ
  keyed : ∀ id i, byID.get id = some i → ∃ r, records[i]? = some r ∧ r.id = id

/-- What `rand.Read` and `uuidNew` give to one key. -/
structure Drawn where
  hex : String
  id : String
  deriving DecidableEq,Repr

def apiKeyPrefix : String := "tk_live_"

def Drawn.plain (d : Drawn) : String := apiKeyPrefix++d.hex

/-- `time.Duration(seconds) * time.Second`, a signed number of 64 bits. -/
def duration (seconds : ℤ) : ℤ := (seconds*second).bmod (2^64)

def expiry (now : Time) (ttl : ℤ) : Option Time := if 0<ttl then some (now+ttl.toNat) else none

namespace APIKeyStore

def new : APIKeyStore := ⟨[],[],[],fun _ _ h => (by cases h)⟩

def record (hash : String → String) (now : Time) (d : Drawn) (userID name : String) (ttl : ℤ) : APIKeyRecord :=
  { id := d.id, userID := userID, hash := hash d.plain, name := name, createdAt := now, expiresAt := expiry now ttl,
    revoked := false }

def issue (s : APIKeyStore) (r : APIKeyRecord) : APIKeyStore where
  records := s.records++[r]
  byID := s.byID.set r.id s.records.length
  byHash := s.byHash.set r.hash s.records.length
  keyed := by
    intro id i hi
    rw [get_set] at hi
    split at hi
    · cases hi
      exact ⟨r,by simp,by simp_all⟩
    · obtain ⟨r',hr',hid⟩ := s.keyed id i hi
      exact ⟨r',by rw [getElem?_append_left (List.getElem?_eq_some_iff.mp hr').1,hr'],hid⟩

def verify (s : APIKeyStore) (hash : String → String) (now : Time) (plain : String) (users : UserStore) :
    Option (String × String) :=
  match (s.byHash.get (hash plain)).bind (s.records[·]?) with
  | none => none
  | some r =>
    if r.revoked then none
    else if r.expiresAt.any (· < now) then none
    else (users.findByID r.userID).map fun u => (u.id,u.role)

def revoke (s : APIKeyStore) (id : String) : Except String APIKeyStore :=
  match s.byID.get id with
  | none => .error ("apikey not found: " ++ id)
  | some i => .ok
    { s with
      records := s.records.modify i fun r => { r with revoked := true }
      keyed := by
        intro id' j hj
        obtain ⟨r,hr,hid⟩ := s.keyed id' j hj
        by_cases hij : i = j
        · exact ⟨{ r with revoked := true },by simp [hij,hr],hid⟩
        · exact ⟨r,by simp [hij,hr],hid⟩ }

end APIKeyStore

/-- The change of `UpdateRole` to a user that is pointed to. -/
def User.assigned (id role : String) (u : User) : User := if u.id = id then { u with role := role } else u

@[simp] lemma User.id_assigned (id role : String) (u : User) : (u.assigned id role).id = u.id := by
  unfold User.assigned
  split <;> rfl

/-- The users in both maps are the same records. -/
def UserStore.updateRole (s : UserStore) (id role : String) : Option UserStore :=
  if (s.findByID id).isSome then some
    { byID := s.byID.map fun f => (f.1,f.2.assigned id role)
      byName := s.byName.map fun f => (f.1,f.2.assigned id role)
      keyed := by
        intro id' u hu
        rw [Directory.get_map] at hu
        obtain ⟨v,hv,rfl⟩ := map_eq_some_iff.mp hu
        simpa using s.keyed id' v hv
      found := by
        intro name u hu
        rw [Directory.get_map] at hu ⊢
        obtain ⟨v,hv,rfl⟩ := map_eq_some_iff.mp hu
        simpa using s.found name v hv }
  else none

/-- A body that passed the binding. -/
structure RegisterRequest where
  username : String
  password : String
  role : String
  username_length : 3≤username.length ∧ username.length≤32 := by decide
  password_length : 8≤password.length ∧ password.length≤128 := by decide
  role_known : role ∈ ["admin","writer","reader"] := by decide

structure IssueAPIKeyRequest where
  name : String
  ttl : ℤ
  named : name ≠ "" := by decide
  ttl_range : -2^63≤ttl ∧ ttl<2^63 := by decide

structure RegisterReply where
  id : String
  username : String
  role : String
  deriving DecidableEq,Repr

structure IssueReply where
  apiKey : String
  id : String
  name : String
  expiresAt : Option Time
  deriving DecidableEq,Repr

abbrev Failure := ℕ × String

/-- The part of the service that the keys depend on. -/
structure Accounts where
  now : Time
  users : UserStore
  apiKeys : APIKeyStore

namespace Accounts

def new : Accounts := ⟨0,UserStore.new,APIKeyStore.new⟩

/-- `hashed` is what bcrypt makes of the password, which it refuses beyond 72 bytes. -/
def register (a : Accounts) (id : String) (hashed : Option String) :
    Except String RegisterRequest → Except Failure RegisterReply × Accounts
  | .error e => (.error (400,e),a)
  | .ok req =>
    match hashed with
    | none => (.error (500,"hash failed"),a)
    | some passwordHash =>
      match a.users.create
          { id := id, username := req.username, passwordHash := passwordHash, role := req.role } with
      | none => (.error (409,"user already exists"),a)
      | some users => (.ok ⟨id,req.username,req.role⟩,{ a with users := users })

/-- `userID` is what the context of the request has under `user_id`; without it the key belongs to nobody. -/
def issueAPIKey (a : Accounts) (hash : String → String) (userID : Option String) (drawn : Option Drawn) :
    Except String IssueAPIKeyRequest → Except Failure IssueReply × Accounts
  | .error e => (.error (400,e),a)
  | .ok req =>
    match drawn with
    | none => (.error (500,"rand failed"),a)
    | some d =>
      let r := APIKeyStore.record hash a.now d (userID.getD "") req.name (duration req.ttl)
      (.ok ⟨d.plain,r.id,r.name,r.expiresAt⟩,{ a with apiKeys := a.apiKeys.issue r })

def verifyAPIKey (a : Accounts) (hash : String → String) (plain : String) : Option (String × String) :=
  a.apiKeys.verify hash a.now plain a.users

def revoke (a : Accounts) (id : String) : Except String Accounts :=
  (a.apiKeys.revoke id).map fun apiKeys => { a with apiKeys := apiKeys }

def updateRole (a : Accounts) (id role : String) : Except String Accounts :=
  match a.users.updateRole id role with
  | none => .error "user not found"
  | some users => .ok { a with users := users }

end Accounts

inductive AccountCall
  | register (body : Except String RegisterRequest) (hashed : Option String) (id : String)
  | issueAPIKey (userID : Option String) (body : Except String IssueAPIKeyRequest) (drawn : Option Drawn)
  | revoke (id : String)
  | updateRole (id role : String)
  | advance (d : ℕ)

namespace Accounts
variable (hash : String → String)

/-- Neither the id nor the hash is in use. -/
def Fresh (a : Accounts) (drawn : Option Drawn) : Prop :=
  ∀ d ∈ drawn, a.apiKeys.byID.get d.id = none ∧ a.apiKeys.byHash.get (hash d.plain) = none

instance (a : Accounts) (drawn : Option Drawn) : Decidable (a.Fresh hash drawn) :=
  inferInstanceAs (Decidable (∀ d ∈ drawn, _))

/-- A call that fails leaves everything as it is. An id that is drawn is new and not empty. -/
def step (a : Accounts) : AccountCall → Option Accounts
  | .register body hashed id =>
    if id ≠ "" ∧ a.users.findByID id = none then some (a.register id hashed body).2 else none
  | .issueAPIKey userID body drawn =>
    if a.Fresh hash drawn then some (a.issueAPIKey hash userID drawn body).2 else none
  | .revoke id => some ((a.revoke id).toOption.getD a)
  | .updateRole id role => some ((a.updateRole id role).toOption.getD a)
  | .advance d => some { a with now := a.now+d }

end Accounts

def APIKeyRecord.revokedIf (r : APIKeyRecord) (b : Bool) : APIKeyRecord := { r with revoked := r.revoked || b }

@[simp] lemma APIKeyRecord.revokedIf_false (r : APIKeyRecord) : r.revokedIf false = r := by simp [revokedIf]

def AccountCall.revokes (id : String) : AccountCall → Bool
  | .revoke id' => id' = id
  | _ => false

section Expiry
variable {now t : Time} {ttl : ℤ}

/-- Beyond 292 years the product wraps around. -/
lemma duration_of_lt (hpos : 0≤ttl) (hlt : ttl*second<2^63) : duration ttl = ttl*second := by
  have hsecond : (0 : ℤ)≤ttl*second := by positivity
  unfold duration
  rw [Int.bmod_eq_of_le] <;> omega

/-- Within that range a key is past its expiry exactly when its lifetime is over; a lifetime of zero never is. -/
lemma expired_iff (hpos : 0≤ttl) (hlt : ttl*second<2^63) :
    (expiry now (duration ttl)).any (· < t) = true ↔ ttl ≠ 0 ∧ now+ttl*second<(t : ℤ) := by
  rw [duration_of_lt hpos hlt]
  have hsecond : (0 : ℤ)<second := by decide
  unfold expiry
  split_ifs with h
  · have hne : ttl ≠ 0 := fun h0 => by simp [h0] at h
    have hcast : ((now+(ttl*second).toNat : ℕ) : ℤ) = now+ttl*second := by
      rw [Nat.cast_add,Int.toNat_of_nonneg h.le]
    simp only [any_some,decide_eq_true_eq,hne,ne_eq,not_false_eq_true,true_and]
    rw [← hcast,Nat.cast_lt]
  · have hzero : ttl = 0 := by
      by_contra hne
      exact h (mul_pos (by omega) hsecond)
    simp [hzero]

end Expiry

namespace Accounts
variable {hash : String → String} {a a' : Accounts} {c : AccountCall} {plain : String} {i : ℕ} {r : APIKeyRecord}

/-- The record of a key is found under its id and under the hash of its text. -/
structure Held (hash : String → String) (a : Accounts) (plain : String) (i : ℕ) (r : APIKeyRecord) : Prop where
  byID : a.apiKeys.byID.get r.id = some i
  byHash : a.apiKeys.byHash.get (hash plain) = some i
  record : a.apiKeys.records[i]? = some r

lemma verifyAPIKey_of_held (h : Held hash a plain i r) :
    a.verifyAPIKey hash plain = if r.revoked = true ∨ r.expiresAt.any (· < a.now) = true then none
      else (a.users.findByID r.userID).map fun u => (u.id,u.role) := by
  unfold verifyAPIKey APIKeyStore.verify
  rw [h.byHash,bind_some,h.record]
  by_cases hrevoked : r.revoked <;> simp [hrevoked]

lemma held_issueAPIKey (userID : Option String) (req : IssueAPIKeyRequest) (d : Drawn) :
    Held hash (a.issueAPIKey hash userID (some d) (.ok req)).2 d.plain a.apiKeys.records.length
      (APIKeyStore.record hash a.now d (userID.getD "") req.name (duration req.ttl)) := by
  constructor <;> simp [issueAPIKey,APIKeyStore.issue,APIKeyStore.record,get_set]

lemma held_of_apiKeys_eq (heq : a'.apiKeys = a.apiKeys) (h : Held hash a plain i r) : Held hash a' plain i r := by
  constructor <;> rw [heq]
  · exact h.byID
  · exact h.byHash
  · exact h.record

lemma held_of_issue {userID : Option String} {body : Except String IssueAPIKeyRequest} {drawn : Option Drawn}
    (hfresh : a.Fresh hash drawn) (h : Held hash a plain i r) :
    Held hash (a.issueAPIKey hash userID drawn body).2 plain i r := by
  cases body with
  | error e => exact h
  | ok req =>
    cases drawn with
    | none => exact h
    | some d =>
      obtain ⟨hid,hhash⟩ := hfresh d rfl
      have hid' : r.id ≠ d.id := fun heq => by simp [← heq,h.byID] at hid
      have hhash' : hash plain ≠ hash d.plain := fun heq => by simp [← heq,h.byHash] at hhash
      constructor
      · simpa [issueAPIKey,APIKeyStore.issue,APIKeyStore.record,get_set,hid'] using h.byID
      · simpa [issueAPIKey,APIKeyStore.issue,APIKeyStore.record,get_set,hhash'] using h.byHash
      · simpa [issueAPIKey,APIKeyStore.issue,
          getElem?_append_left (List.getElem?_eq_some_iff.mp h.record).1] using h.record

variable {id : String}

lemma held_of_revoke (h : Held hash a plain i r) :
    Held hash ((a.revoke id).toOption.getD a) plain i (r.revokedIf (decide (id = r.id))) := by
  unfold revoke APIKeyStore.revoke
  cases hget : a.apiKeys.byID.get id with
  | none =>
    have hne : id ≠ r.id := fun heq => by simp [heq,h.byID] at hget
    simpa [hne,Except.map,Except.toOption] using h
  | some j =>
    have hiff : id = r.id ↔ j = i := by
      refine ⟨fun heq => ?_,fun heq => ?_⟩
      · rw [heq,h.byID] at hget
        exact (some.inj hget).symm
      · obtain ⟨r',hr',hid⟩ := a.apiKeys.keyed id j hget
        rw [heq,h.record] at hr'
        rw [← hid,← some.inj hr']
    refine ⟨h.byID,h.byHash,?_⟩
    by_cases hij : j = i
    · simp [Except.map,Except.toOption,hij,hiff,h.record,APIKeyRecord.revokedIf]
    · simp [Except.map,Except.toOption,hij,hiff,h.record]

lemma apiKeys_register {hashed : Option String} {body : Except String RegisterRequest} :
    (a.register id hashed body).2.apiKeys = a.apiKeys := by
  unfold register
  repeat' split
  all_goals rfl

lemma apiKeys_updateRole {id role : String} : ((a.updateRole id role).toOption.getD a).apiKeys = a.apiKeys := by
  unfold updateRole
  split <;> rfl

lemma held_step (hstep : a.step hash c = some a') (h : Held hash a plain i r) :
    Held hash a' plain i (r.revokedIf (c.revokes r.id)) := by
  cases c with
  | register body hashed id =>
    simp only [step,ite_none_right_eq_some,some.injEq] at hstep
    obtain ⟨-,rfl⟩ := hstep
    simpa [AccountCall.revokes] using held_of_apiKeys_eq apiKeys_register h
  | issueAPIKey userID body drawn =>
    simp only [step,ite_none_right_eq_some,some.injEq] at hstep
    obtain ⟨hfresh,rfl⟩ := hstep
    simpa [AccountCall.revokes] using held_of_issue hfresh h
  | revoke id =>
    cases hstep
    exact held_of_revoke h
  | updateRole id role =>
    cases hstep
    simpa [AccountCall.revokes] using held_of_apiKeys_eq apiKeys_updateRole h
  | advance d =>
    cases hstep
    have hsame : Held hash { a with now := a.now+d } plain i r := held_of_apiKeys_eq (a := a) rfl h
    simpa [AccountCall.revokes] using hsame

lemma held_run {cs : List AccountCall} (hrun : Runs.run (step hash) a cs = some a') (h : Held hash a plain i r) :
    Held hash a' plain i (r.revokedIf (cs.any (AccountCall.revokes r.id))) := by
  induction cs generalizing a r with
  | nil =>
    cases hrun
    simpa using h
  | cons c cs ih =>
    obtain ⟨b,hstep,hrest⟩ := bind_eq_some_iff.mp hrun
    simpa [APIKeyRecord.revokedIf,Bool.or_assoc] using ih hrest (held_step hstep h)

/-- From its issue on, whatever else is called, a key stands for the user it was issued for until it is revoked or
its lifetime is over, with the role that the user has then. -/
theorem verifyAPIKey_run {userID : String} {req : IssueAPIKeyRequest} {d : Drawn} {cs : List AccountCall}
    (hpos : 0≤req.ttl) (hlt : req.ttl*second<2^63)
    (hrun : Runs.run (step hash) (a.issueAPIKey hash (some userID) (some d) (.ok req)).2 cs = some a') :
    a'.verifyAPIKey hash d.plain =
      if cs.any (AccountCall.revokes d.id) = true ∨ (req.ttl ≠ 0 ∧ a.now+req.ttl*second<(a'.now : ℤ)) then none
      else (a'.users.findByID userID).map fun u => (u.id,u.role) := by
  have hheld := held_run hrun (held_issueAPIKey (some userID) req d)
  rw [verifyAPIKey_of_held hheld]
  simp only [APIKeyRecord.revokedIf,APIKeyStore.record,Bool.false_or,getD_some,expired_iff hpos hlt]

theorem verifyAPIKey_then_revoked : ∃ a', Runs.run (step fun s => s)
    (new.issueAPIKey (fun s => s) (some "1") (some ⟨"00","k1"⟩) (.ok { name := "key", ttl := 60 })).2
      [.advance 5,.revoke "k1"] = some a' ∧
      a'.verifyAPIKey (fun s => s) "tk_live_00" = none :=
  (isSome_iff_exists.mp rfl).imp fun _ hrun =>
    ⟨hrun,(verifyAPIKey_run (by decide) (by decide) hrun).trans (if_pos (.inl rfl))⟩

/-- No key belongs to a user, and no user has the empty id. -/
structure Unowned (a : Accounts) : Prop where
  records : ∀ r ∈ a.apiKeys.records, r.userID = ""
  users : a.users.findByID "" = none

lemma verifyAPIKey_of_unowned (h : Unowned a) : a.verifyAPIKey hash plain = none := by
  unfold verifyAPIKey APIKeyStore.verify
  cases hr : (a.apiKeys.byHash.get (hash plain)).bind (a.apiKeys.records[·]?) with
  | none => rfl
  | some r =>
    obtain ⟨i,-,hi⟩ := bind_eq_some_iff.mp hr
    have huser := h.records r (mem_of_getElem? hi)
    simp [huser,h.users]

lemma findByID_register {hashed : Option String} {body : Except String RegisterRequest} (hid : id ≠ "")
    (h : a.users.findByID "" = none) : (a.register id hashed body).2.users.findByID "" = none := by
  unfold register
  repeat' split
  · exact h
  · exact h
  · exact h
  · rename_i users hcreate
    simp only [UserStore.create,ite_none_left_eq_some,some.injEq] at hcreate
    obtain ⟨-,rfl⟩ := hcreate
    simpa [UserStore.findByID,get_set,Ne.symm hid] using h

lemma findByID_updateRole {id role : String} (h : a.users.findByID "" = none) :
    ((a.updateRole id role).toOption.getD a).users.findByID "" = none := by
  unfold updateRole
  split
  · exact h
  · rename_i users hupdate
    simp only [UserStore.updateRole,ite_none_right_eq_some,some.injEq] at hupdate
    obtain ⟨-,rfl⟩ := hupdate
    change get (a.users.byID.map _) "" = none
    rw [Directory.get_map]
    simpa [UserStore.findByID] using h

lemma records_revoke (h : ∀ r ∈ a.apiKeys.records, r.userID = "") :
    ∀ r ∈ ((a.revoke id).toOption.getD a).apiKeys.records, r.userID = "" := by
  unfold revoke APIKeyStore.revoke
  cases a.apiKeys.byID.get id with
  | none => exact h
  | some i =>
    intro r hr
    obtain ⟨j,hj⟩ := mem_iff_getElem?.mp hr
    simp only [Except.map,Except.toOption,getD_some,getElem?_modify,Option.map_eq_map,map_eq_some_iff] at hj
    obtain ⟨r',hr',rfl⟩ := hj
    have huser := h r' (mem_of_getElem? hr')
    split <;> exact huser

lemma unowned_step (hstep : a.step hash c = some a')
    (hnobody : ∀ userID body drawn, c = .issueAPIKey userID body drawn → userID = none) (h : Unowned a) :
    Unowned a' := by
  cases c with
  | register body hashed id =>
    simp only [step,ite_none_right_eq_some,some.injEq] at hstep
    obtain ⟨⟨hid,-⟩,rfl⟩ := hstep
    exact ⟨by rw [apiKeys_register]; exact h.records,findByID_register hid h.users⟩
  | issueAPIKey userID body drawn =>
    simp only [step,ite_none_right_eq_some,some.injEq] at hstep
    obtain ⟨-,rfl⟩ := hstep
    obtain rfl := hnobody _ _ _ rfl
    cases body with
    | error e => exact h
    | ok req =>
      cases drawn with
      | none => exact h
      | some d =>
        refine ⟨fun r hr => ?_,h.users⟩
        obtain hr | hr := mem_append.mp hr
        · exact h.records r hr
        · rw [mem_singleton.mp hr]
          rfl
  | revoke id =>
    cases hstep
    refine ⟨records_revoke h.records,?_⟩
    unfold revoke APIKeyStore.revoke
    cases a.apiKeys.byID.get id <;> exact h.users
  | updateRole id role =>
    cases hstep
    exact ⟨by rw [apiKeys_updateRole]; exact h.records,findByID_updateRole h.users⟩
  | advance d =>
    cases hstep
    exact ⟨h.records,h.users⟩

end Accounts
end TitanKV.Services.Auth
