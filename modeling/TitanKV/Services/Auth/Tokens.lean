import TitanKV.Library.Directory

/-! The tokens of the auth service and the stores its handlers use. A token is what the JWT library makes
of its text: the claims, the method and the key they are signed with. The library checks the signature and
the times; the clock counts nanoseconds. -/
namespace TitanKV.Services.Auth

abbrev Time := ℕ

def second : Time := 10^9

/-- A date in a token has a precision of one second. -/
def numericDate (t : Time) : ℕ := t/second

inductive SigningMethod
  | hs256
  | hs384
  | hs512
  | other (alg : String)
  deriving DecidableEq,Repr

/-- The JSON tag of `UserID` hides the registered subject. `extra` stands for all that nothing reads. -/
structure Claims where
  userID : String
  role : String
  id : String
  issuer : String
  expiresAt : Option ℕ
  notBefore : Option ℕ
  issuedAt : Option ℕ
  extra : List (String × String)
  deriving DecidableEq,Repr

inductive Token
  | signed (method : SigningMethod) (key : String) (claims : Claims)
  | malformed (text : String)
  deriving DecidableEq,Repr

def Token.claims : Token → Option Claims
  | .signed _ _ claims => some claims
  | .malformed _ => none

inductive TokenError
  | malformed
  | unverifiable (message : String)
  | signatureInvalid
  | expired
  | notYetValid
  deriving DecidableEq,Repr

/-- The key function of both parsers accepts the HMAC family only; they differ in the error. -/
def hmacKey (secret : String) (refused : String → TokenError) : SigningMethod → Except TokenError String
  | .other alg => .error (refused alg)
  | _ => .ok secret

structure JWTManager where
  secret : String
  accessTTL : Time
  refreshTTL : Time

/-- What `uuid.NewString` and the two readings of the clock give a signing call. -/
structure Stamp where
  jti : String
  now : Time
  issued : Time
  drawn : jti ≠ "" := by decide

namespace JWTManager

def new (secret : String) : JWTManager := ⟨secret,30*60*second,7*24*3600*second⟩

def accessClaims (m : JWTManager) (userID role : String) (s : Stamp) : Claims :=
  { userID := userID, role := role, id := s.jti, issuer := "titan-auth"
    expiresAt := some (numericDate (s.now+m.accessTTL)), notBefore := none
    issuedAt := some (numericDate s.issued), extra := [] }

def signAccess (m : JWTManager) (userID role : String) (s : Stamp) : Token :=
  .signed .hs256 m.secret (m.accessClaims userID role s)

/-- A refresh token has no role. -/
def refreshClaims (m : JWTManager) (userID : String) (s : Stamp) : Claims :=
  { userID := userID, role := "", id := s.jti, issuer := "titan-auth-refresh"
    expiresAt := some (numericDate (s.now+m.refreshTTL)), notBefore := none
    issuedAt := some (numericDate s.issued), extra := [] }

def signRefresh (m : JWTManager) (userID : String) (s : Stamp) : Token :=
  .signed .hs256 m.secret (m.refreshClaims userID s)

end JWTManager

/-- Values with the time they expire at. -/
structure Redis where
  entries : String → Option (String × Time)
  up : Bool

def Redis.Holds (r : Redis) (now : Time) (key : String) : Prop := ∃ entry ∈ r.entries key, now<entry.2

instance (r : Redis) (now : Time) (key : String) : Decidable (r.Holds now key) :=
  inferInstanceAs (Decidable (∃ entry ∈ r.entries key, now<entry.2))

/-- The times of a token are met: it has not expired and is valid already. -/
def Claims.Current (claims : Claims) (now : Time) : Prop :=
  (∀ exp ∈ claims.expiresAt, now<exp*second) ∧ ∀ nbf ∈ claims.notBefore, nbf*second≤now

/-- The JWT library and the Redis client, as far as the services rely on them. A token is accepted if the key that
the key function gives for its method has signed it and its times are met. `EXISTS` counts the one key. -/
class AuthLibraries where
  parseWithClaims : (SigningMethod → Except TokenError String) → Time → Token → Except TokenError Claims
  existsKey : Redis → Time → String → Except Unit ℕ
  set : Redis → Time → String → String → Time → Redis
  del : Redis → String → Redis
  parse_eq_ok_iff : ∀ {keyFor now token claims}, parseWithClaims keyFor now token = .ok claims ↔
    (∃ method key, keyFor method = .ok key ∧ token = .signed method key claims) ∧ claims.Current now
  existsKey_of_up : ∀ {r now key}, r.up = true → existsKey r now key = .ok (if r.Holds now key then 1 else 0)
  up_set : ∀ {r now key value ttl}, (set r now key value ttl).up = r.up
  up_del : ∀ {r key}, (del r key).up = r.up
  entries_set : ∀ {r now key value ttl key'}, r.up = true →
    (set r now key value ttl).entries key' = if key' = key then some (value,now+ttl) else r.entries key'
  entries_del : ∀ {r key key'}, r.up = true → (del r key).entries key' = if key' = key then none else r.entries key'

export AuthLibraries (parseWithClaims parse_eq_ok_iff existsKey_of_up up_set up_del entries_set entries_del)

namespace Redis
export AuthLibraries (existsKey set del)
end Redis

attribute [simp] up_set up_del

namespace JWTManager

def parse [AuthLibraries] (m : JWTManager) (now : Time) (token : Token) : Except TokenError Claims :=
  parseWithClaims (hmacKey m.secret fun alg => .unverifiable ("unexpected signing method: " ++ alg)) now token

end JWTManager

structure User where
  id : String
  username : String
  passwordHash : String
  role : String
  deriving DecidableEq,Repr

/-- Users by id and by name. Users are filed under their own id, and whoever is found by name is found by id. -/
structure UserStore where
  byID : Directory String User
  byName : Directory String User
  keyed : ∀ id u, byID.get id = some u → u.id = id
  found : ∀ name u, byName.get name = some u → (byID.get u.id).isSome

namespace UserStore

def new : UserStore := ⟨[],[],fun _ _ h => (by cases h),fun _ _ h => (by cases h)⟩

def findByID (s : UserStore) (id : String) : Option User := s.byID.get id

def findByUsername (s : UserStore) (name : String) : Option User := s.byName.get name

/-- Names are unique. -/
def create (s : UserStore) (u : User) : Option UserStore :=
  if (s.byName.get u.username).isSome then none
  else some
    { byID := s.byID.set u.id u
      byName := s.byName.set u.username u
      keyed := by
        intro id v hv
        rw [Directory.get_set] at hv
        split at hv
        · rename_i hid
          cases hv
          exact hid.symm
        · exact s.keyed id v hv
      found := by
        intro name v hv
        rw [Directory.get_set] at hv ⊢
        split
        · rfl
        · rename_i hid
          split at hv
          · cases hv
            exact absurd rfl hid
          · exact s.found name v hv }

end UserStore

section Parse
variable {secret : String} {refused : String → TokenError} {now : Time} {token : Token} {claims : Claims}

lemma hmacKey_eq_ok_iff {method : SigningMethod} {key : String} :
    hmacKey secret refused method = .ok key ↔ (∀ alg, method ≠ .other alg) ∧ secret = key := by
  cases method <;> simp [hmacKey]

/-- A parser accepts a token exactly if an HMAC method signed it with the shared key and its times are met. -/
lemma parseWithClaims_eq_ok_iff [AuthLibraries] :
    parseWithClaims (hmacKey secret refused) now token = .ok claims ↔
      (∃ method, token = .signed method secret claims ∧ ∀ alg, method ≠ .other alg) ∧ claims.Current now := by
  simp only [parse_eq_ok_iff,hmacKey_eq_ok_iff]
  refine and_congr_left fun _ => exists_congr fun method => ?_
  constructor
  · rintro ⟨_,⟨hmethod,rfl⟩,htoken⟩
    exact ⟨htoken,hmethod⟩
  · rintro ⟨htoken,hmethod⟩
    exact ⟨secret,⟨hmethod,rfl⟩,htoken⟩

/-- `jwt.ParseWithClaims` asks the key function first and then checks the signature and the times. -/
def checkToken (keyFor : SigningMethod → Except TokenError String) (now : Time) : Token → Except TokenError Claims
  | .malformed _ => .error .malformed
  | .signed method key claims =>
    match keyFor method with
    | .error e => .error e
    | .ok expected =>
      if key = expected then
        if claims.expiresAt.any (fun exp => exp*second≤now) then .error .expired
        else if claims.notBefore.any (fun nbf => now<nbf*second) then .error .notYetValid
        else .ok claims
      else .error .signatureInvalid

lemma any_eq_false_iff {α : Type*} {p : α → Prop} [DecidablePred p] {o : Option α} :
    o.any (fun a => decide (p a)) = false ↔ ∀ a ∈ o, ¬p a := by
  cases o <;> simp

lemma current_iff : claims.Current now ↔
    claims.expiresAt.any (fun exp => exp*second≤now) = false ∧
      claims.notBefore.any (fun nbf => now<nbf*second) = false := by
  simp only [Claims.Current,any_eq_false_iff,not_le,not_lt]

lemma checkToken_eq_ok_iff {keyFor : SigningMethod → Except TokenError String} :
    checkToken keyFor now token = .ok claims ↔
      (∃ method key, keyFor method = .ok key ∧ token = .signed method key claims) ∧ claims.Current now := by
  cases token with
  | malformed text => simp [checkToken]
  | signed method key c =>
    rw [checkToken]
    cases hkey : keyFor method with
    | error e =>
      simp only [reduceCtorEq,false_iff]
      rintro ⟨⟨_,_,hok,htoken⟩,-⟩
      cases htoken
      rw [hkey] at hok
      cases hok
    | ok expected =>
      constructor
      · intro h
        dsimp only at h
        split_ifs at h with hk hexp hnbf
        cases h
        exact ⟨⟨method,key,hk ▸ hkey,rfl⟩,current_iff.mpr ⟨by simpa using hexp,by simpa using hnbf⟩⟩
      · rintro ⟨⟨_,_,hok,htoken⟩,hcurrent⟩
        cases htoken
        obtain rfl := Except.ok.inj (hkey.symm.trans hok)
        obtain ⟨hexp,hnbf⟩ := current_iff.mp hcurrent
        simp only [if_true,hexp,hnbf,Bool.false_eq_true,if_false]

/-- A command fails while Redis is down. -/
instance : AuthLibraries where
  parseWithClaims := checkToken
  existsKey r now key := if r.up then .ok (if r.Holds now key then 1 else 0) else .error ()
  set r now key value ttl :=
    if r.up then { r with entries := Function.update r.entries key (some (value,now+ttl)) } else r
  del r key := if r.up then { r with entries := Function.update r.entries key none } else r
  parse_eq_ok_iff := checkToken_eq_ok_iff
  existsKey_of_up hup := if_pos hup
  up_set := by intros; split <;> rfl
  up_del := by intros; split <;> rfl
  entries_set hup := by rw [if_pos hup]; exact Function.update_apply ..
  entries_del hup := by rw [if_pos hup]; exact Function.update_apply ..

end Parse
end TitanKV.Services.Auth
