import TitanKV.Services.Auth.Handlers

/-! The authentication middleware of the gateway, which shares the secret, the claims and the Redis keys of
revoked ids with the auth service. It asks neither for the issuer nor for a role. -/
namespace TitanKV.Gateway
open TitanKV.Services.Auth

structure AuthConfig where
  jwtSecret : String
  redis : Option Redis
  apiKeyVerify : Option (String → Option (String × String))

inductive Authorization
  | bearer (token : Token)
  | other (header : String)

structure Request where
  authorization : Authorization
  apiKey : String

inductive AuthMethod
  | jwt
  | apikey
  deriving DecidableEq,Repr

inductive Verdict
  | admitted (userID role : String) (method : AuthMethod)
  | refused (error : String)
  deriving DecidableEq,Repr

def parseJWT [AuthLibraries] (now : Time) (token : Token) (secret : String) : Except TokenError Claims :=
  parseWithClaims (hmacKey secret fun _ => .signatureInvalid) now token

/-- If Redis fails, nothing counts as revoked. -/
def isRevoked [AuthLibraries] (rdb : Redis) (now : Time) (jti : String) : Bool :=
  match rdb.existsKey now (revokedKey jti) with
  | .error () => false
  | .ok n => 0<n

/-- The second half of `Auth`: the API key decides. -/
def authenticateKey (cfg : AuthConfig) (apiKey : String) : Verdict :=
  match cfg.apiKeyVerify with
  | none => .refused "unauthorized"
  | some verify =>
    if apiKey = "" then .refused "unauthorized"
    else
      match verify apiKey with
      | none => .refused "unauthorized"
      | some (userID,role) => .admitted userID role .apikey

/-- The token is parsed at `now` and looked up in Redis at `checked`. -/
def auth [AuthLibraries] (cfg : AuthConfig) (now checked : Time) (req : Request) : Verdict :=
  match req.authorization with
  | .other _ => authenticateKey cfg req.apiKey
  | .bearer token =>
    match parseJWT now token cfg.jwtSecret with
    | .error _ => authenticateKey cfg req.apiKey
    | .ok claims =>
      if claims.id ≠ "" ∧ cfg.redis.any (fun rdb => isRevoked rdb checked claims.id) then .refused "token revoked"
      else .admitted claims.userID claims.role .jwt

def Verdict.Admits (v : Verdict) : Prop := ∃ userID role method, v = .admitted userID role method

/-- An HMAC method signed the claims with the secret, and their times are met. -/
def Verified (secret : String) (now : Time) (token : Token) (claims : Claims) : Prop :=
  (∃ method, token = .signed method secret claims ∧ ∀ alg, method ≠ .other alg) ∧ claims.Current now

def Revoked (r : Redis) (checked : Time) (claims : Claims) : Prop :=
  claims.id ≠ "" ∧ r.Holds checked (revokedKey claims.id)

instance (r : Redis) (checked : Time) (claims : Claims) : Decidable (Revoked r checked claims) :=
  inferInstanceAs (Decidable (_ ∧ _))

def MadeBySignAccess (secret : String) (token : Token) : Prop :=
  ∃ userID role stamp, token = (JWTManager.new secret).signAccess userID role stamp

/-- A token of `SignAccess` that has not expired and whose id is not in the revocation set. -/
structure Live (secret : String) (r : Redis) (now checked : Time) (token : Token) : Prop where
  made : MadeBySignAccess secret token
  current : ∀ claims ∈ token.claims, claims.Current now
  unrevoked : ∀ claims ∈ token.claims, ¬r.Holds checked (revokedKey claims.id)

section Bearer
variable {cfg : AuthConfig} {r : Redis} {now checked : Time} {token : Token} {apiKey secret : String}
  {claims : Claims}

lemma live_of_verified_iff (h : Verified secret now token claims) :
    Live secret r now checked token ↔ MadeBySignAccess secret token ∧ ¬Revoked r checked claims := by
  obtain ⟨⟨method,rfl,-⟩,hcurrent⟩ := h
  constructor
  · intro hlive
    exact ⟨hlive.made,fun hrevoked => hlive.unrevoked claims rfl hrevoked.2⟩
  · rintro ⟨hmade,hunrevoked⟩
    refine ⟨hmade,by rintro _ ⟨⟩; exact hcurrent,?_⟩
    rintro _ ⟨⟩ hholds
    obtain ⟨userID,role,stamp,htoken⟩ := hmade
    cases htoken
    exact hunrevoked ⟨stamp.drawn,hholds⟩

lemma exists_verified_of_live (h : Live secret r now checked token) :
    ∃ claims, Verified secret now token claims := by
  obtain ⟨⟨userID,role,stamp,rfl⟩,hcurrent,-⟩ := h
  exact ⟨_,⟨.hs256,rfl,by simp⟩,hcurrent _ rfl⟩

lemma authenticateKey_ne_jwt (userID role : String) : authenticateKey cfg apiKey ≠ .admitted userID role .jwt := by
  rw [authenticateKey]
  split
  · simp
  · split_ifs
    · simp
    · split <;> simp

variable [AuthLibraries]

lemma isRevoked_of_up (hup : r.up = true) {jti : String} :
    isRevoked r checked jti = true ↔ r.Holds checked (revokedKey jti) := by
  rw [isRevoked,existsKey_of_up hup]
  by_cases h : r.Holds checked (revokedKey jti) <;> simp [h]

lemma parseJWT_eq_ok_iff : parseJWT now token secret = .ok claims ↔ Verified secret now token claims :=
  parseWithClaims_eq_ok_iff

lemma auth_of_verified (hredis : cfg.redis = some r) (hup : r.up = true)
    (h : Verified cfg.jwtSecret now token claims) :
    auth cfg now checked ⟨.bearer token,apiKey⟩ =
      if Revoked r checked claims then .refused "token revoked" else .admitted claims.userID claims.role .jwt := by
  have hrevoked : (claims.id ≠ "" ∧ cfg.redis.any (fun rdb => isRevoked rdb checked claims.id) = true) ↔
      Revoked r checked claims := by
    rw [hredis,Option.any_some,isRevoked_of_up hup,Revoked]
  simp only [auth,parseJWT_eq_ok_iff.mpr h]
  exact if_congr hrevoked rfl rfl

lemma auth_of_not_verified (h : ∀ claims, ¬Verified cfg.jwtSecret now token claims) :
    auth cfg now checked ⟨.bearer token,apiKey⟩ = authenticateKey cfg apiKey := by
  cases hparse : parseJWT now token cfg.jwtSecret with
  | error e => simp only [auth,hparse]
  | ok claims => exact absurd (parseJWT_eq_ok_iff.mp hparse) (h claims)

lemma admits_of_verified_iff (hredis : cfg.redis = some r) (hup : r.up = true)
    (h : Verified cfg.jwtSecret now token claims) :
    (auth cfg now checked ⟨.bearer token,apiKey⟩).Admits ↔ ¬Revoked r checked claims := by
  rw [auth_of_verified hredis hup h,Verdict.Admits]
  split_ifs with hrevoked <;> simp [hrevoked]

/-- After its logout a token no longer authenticates, as long as Redis is up and keeps the entry. -/
theorem auth_after_logout {s : Service} {r' : Redis} {exp : ℕ} {later t : Time}
    {entries : String → Option (String × Time)} {verify : Option (String → Option (String × String))}
    (hup : r.up = true) (hparse : s.jwt.parse now token = .ok claims) (hid : claims.id ≠ "")
    (hexp : claims.expiresAt = some exp) (hlogout : (s.logout (some r) now later token).2 = some r')
    (hkept : entries (revokedKey claims.id) = r'.entries (revokedKey claims.id)) (ht : later≤t)
    (userID role : String) :
    auth ⟨secret,some ⟨entries,true⟩,verify⟩ t t ⟨.bearer token,apiKey⟩ ≠ .admitted userID role .jwt := by
  by_cases hverified : ∃ claims, Verified secret t token claims
  · obtain ⟨claims',h⟩ := hverified
    obtain ⟨⟨_,rfl,-⟩,-⟩ := parseWithClaims_eq_ok_iff.mp hparse
    obtain ⟨⟨_,htoken,-⟩,hcurrent⟩ := id h
    obtain rfl := (Token.signed.inj htoken).2.2
    have hlater : later<exp*second := ht.trans_lt (hcurrent.1 exp hexp)
    simp only [Service.logout,hparse,hexp,if_pos hlater] at hlogout
    cases hlogout
    have hholds : Redis.Holds ⟨entries,true⟩ t (revokedKey claims.id) := by
      refine ⟨("1",later+(exp*second-later)),?_,?_⟩
      · exact hkept.trans ((entries_set hup).trans (if_pos rfl))
      · rw [Nat.add_sub_cancel' hlater.le]
        exact hcurrent.1 exp hexp
    rw [auth_of_verified rfl rfl h,if_pos ⟨hid,hholds⟩]
    simp
  · rw [auth_of_not_verified (not_exists.mp hverified)]
    exact authenticateKey_ne_jwt userID role

end Bearer

theorem auth_refuses_logged_out : let token := (JWTManager.new "secret").signAccess "1" "admin" ⟨"t1",0,0,by decide⟩
    ∃ r, ((Service.mk .new (.new "secret") fun _ _ => true).logout (some ⟨fun _ => none,true⟩) 0 0 token).2 =
      some r ∧
      auth ⟨"secret",some ⟨r.entries,true⟩,none⟩ 1 1 ⟨.bearer token,""⟩ ≠ .admitted "1" "admin" .jwt :=
  (Option.isSome_iff_exists.mp (by decide +kernel)).imp fun r hlogout =>
    ⟨hlogout,auth_after_logout rfl
      (parseWithClaims_eq_ok_iff.mpr ⟨⟨.hs256,rfl,by simp⟩,by decide +kernel,by decide +kernel⟩)
      (by decide) rfl hlogout rfl (Nat.zero_le 1) "1" "admin"⟩

end TitanKV.Gateway
