import TitanKV.Services.Auth.Tokens

/-! The handlers `Login`, `Refresh` and `Logout` of the auth service. The body of a request is the outcome
of binding it. A refresh is cut into the parts between its Redis commands, so that the parts of concurrent
requests can be interleaved. -/
namespace TitanKV.Services.Auth

inductive Reply
  | failed (status : ℕ) (error : String)
  | loggedIn (access refresh : Token) (expiresIn : ℕ) (tokenType userID role : String)
  | refreshed (access refresh : Token) (expiresIn : ℕ)
  | loggedOut
  | panicked
  deriving DecidableEq,Repr

def Reply.refreshToken : Reply → Option Token
  | .loggedIn _ refresh _ _ _ _ => some refresh
  | .refreshed _ refresh _ => some refresh
  | _ => none

structure Service where
  users : UserStore
  jwt : JWTManager
  verifyPassword : String → String → Bool

def refreshKey (jti : String) : String := "refresh:" ++ jti

def revokedKey (jti : String) : String := "revoked:jti:" ++ jti

structure LoginRequest where
  username : String
  password : String

/-- What a signing handler draws for its two tokens. -/
structure Stamps where
  access : Stamp
  refresh : Stamp

namespace Service
variable [AuthLibraries] (s : Service)

def expiresIn : ℕ := s.jwt.accessTTL/second

/-- `registered` is the time of the `SET`. -/
def login (rdb : Option Redis) (stamps : Stamps) (registered : Time) :
    Except String LoginRequest → Reply × Option Redis
  | .error e => (.failed 400 e,rdb)
  | .ok req =>
    match s.users.findByUsername req.username with
    | none => (.failed 401 "invalid credentials",rdb)
    | some u =>
      if s.verifyPassword req.password u.passwordHash then
        (.loggedIn (s.jwt.signAccess u.id u.role stamps.access) (s.jwt.signRefresh u.id stamps.refresh) s.expiresIn
            "Bearer" u.id u.role,
          rdb.map fun r => r.set registered (refreshKey stamps.refresh.jti) u.id s.jwt.refreshTTL)
      else (.failed 401 "invalid credentials",rdb)

/-- `Refresh` up to its first Redis command. -/
def parseRefresh (now : Time) : Except String Token → Except Reply Claims
  | .error e => .error (.failed 400 e)
  | .ok token =>
    match s.jwt.parse now token with
    | .error _ => .error (.failed 401 "invalid refresh token")
    | .ok claims =>
      if claims.issuer = "titan-auth-refresh" then .ok claims else .error (.failed 401 "invalid refresh token")

/-- `Refresh` behind its last Redis command. -/
def reissue (stamps : Stamps) (claims : Claims) : Reply :=
  match s.users.findByID claims.userID with
  | none => .failed 401 "user not found"
  | some u =>
    .refreshed (s.jwt.signAccess u.id u.role stamps.access) (s.jwt.signRefresh u.id stamps.refresh) s.expiresIn

end Service

/-- The `EXISTS` of a refresh. -/
def checkRegistered [AuthLibraries] (r : Redis) (now : Time) (claims : Claims) : Except Reply Claims :=
  match r.existsKey now (refreshKey claims.id) with
  | .error () => .error (.failed 401 "refresh token revoked")
  | .ok n => if n = 0 then .error (.failed 401 "refresh token revoked") else .ok claims

namespace Service
variable [AuthLibraries] (s : Service)

/-- The token is parsed at `now` and looked up in Redis at `checked`. -/
def refresh (rdb : Option Redis) (now checked : Time) (stamps : Stamps) (body : Except String Token) :
    Reply × Option Redis :=
  match s.parseRefresh now body with
  | .error reply => (reply,rdb)
  | .ok claims =>
    match rdb with
    | none => (s.reissue stamps claims,none)
    | some r =>
      match checkRegistered r checked claims with
      | .error reply => (reply,some r)
      | .ok claims => (s.reissue stamps claims,some (r.del (refreshKey claims.id)))

/-- The `TrimPrefix` of the header is part of `token`. A token without an expiry is dereferenced all the same. -/
def logout (rdb : Option Redis) (now later : Time) (token : Token) : Reply × Option Redis :=
  match s.jwt.parse now token with
  | .error _ => (.failed 400 "invalid token",rdb)
  | .ok claims =>
    match rdb with
    | none => (.loggedOut,none)
    | some r =>
      match claims.expiresAt with
      | none => (.panicked,some r)
      | some exp =>
        if later<exp*second then (.loggedOut,some (r.set later (revokedKey claims.id) "1" (exp*second-later)))
        else (.loggedOut,some r)

end Service

/-- How far a refresh request has come. -/
inductive RefreshStage
  | arrived (body : Except String Token)
  | parsed (claims : Claims)
  | checked (claims : Claims)
  | consumed (claims : Claims)
  | answered (reply : Reply)

def Service.advance [AuthLibraries] (s : Service) (now : Time) (stamps : Stamps) (r : Redis) :
    RefreshStage → RefreshStage × Redis
  | .arrived body =>
    match s.parseRefresh now body with
    | .error reply => (.answered reply,r)
    | .ok claims => (.parsed claims,r)
  | .parsed claims =>
    match checkRegistered r now claims with
    | .error reply => (.answered reply,r)
    | .ok claims => (.checked claims,r)
  | .checked claims => (.consumed claims,r.del (refreshKey claims.id))
  | .consumed claims => (.answered (s.reissue stamps claims),r)
  | .answered reply => (.answered reply,r)

lemma refreshKey_inj {jti jti' : String} :
    refreshKey jti = refreshKey jti' ↔ jti = jti' := String.append_right_inj "refresh:"

lemma checkRegistered_of_up [AuthLibraries] {r : Redis} {now : Time} {claims : Claims} (hup : r.up = true) :
    checkRegistered r now claims = if r.Holds now (refreshKey claims.id) then .ok claims
      else .error (.failed 401 "refresh token revoked") := by
  rw [checkRegistered,existsKey_of_up hup]
  by_cases h : r.Holds now (refreshKey claims.id) <;> simp [h]

namespace Service
variable {s : Service} {now : Time} {stamps : Stamps} {claims : Claims}

lemma refreshToken_reissue {token : Token} : (s.reissue stamps claims).refreshToken = some token ↔
    ∃ u, s.users.findByID claims.userID = some u ∧ token = s.jwt.signRefresh u.id stamps.refresh := by
  rw [reissue]
  cases s.users.findByID claims.userID with
  | none => simp [Reply.refreshToken]
  | some u => simp [Reply.refreshToken,eq_comm]

/-- The time at which a token of `SignRefresh` expires. -/
def deadline (m : JWTManager) (stamp : Stamp) : Time := numericDate (stamp.now+m.refreshTTL)*second

lemma parseRefresh_signRefresh [AuthLibraries] (userID : String) (stamp : Stamp) :
    s.parseRefresh now (.ok (s.jwt.signRefresh userID stamp)) =
      if now < deadline s.jwt stamp then .ok (s.jwt.refreshClaims userID stamp)
      else .error (.failed 401 "invalid refresh token") := by
  have hiff :=
    @parseWithClaims_eq_ok_iff s.jwt.secret (fun alg => .unverifiable ("unexpected signing method: " ++ alg)) now
    (s.jwt.signRefresh userID stamp)
  rw [parseRefresh]
  split_ifs with hnow
  · have hok : s.jwt.parse now (s.jwt.signRefresh userID stamp) = .ok (s.jwt.refreshClaims userID stamp) :=
      hiff.mpr ⟨⟨.hs256,rfl,by simp⟩,by simpa [Claims.Current,JWTManager.refreshClaims,deadline] using hnow⟩
    rw [hok]
    rfl
  · cases hparse : s.jwt.parse now (s.jwt.signRefresh userID stamp) with
    | error e => rfl
    | ok claims =>
      obtain ⟨⟨_,htoken,-⟩,hexp,-⟩ := hiff.mp hparse
      cases htoken
      exact absurd (hexp _ rfl) hnow

end Service

end TitanKV.Services.Auth
