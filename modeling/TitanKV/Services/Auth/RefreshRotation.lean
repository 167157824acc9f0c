import TitanKV.Services.Auth.Handlers

/-! Refresh tokens over runs of `Login` and `Refresh`. Only `Login` registers the token it hands out, so of
the tokens that nobody has used yet exactly those of a login are accepted. -/
namespace TitanKV.Services.Auth
open List

/-- A call with what it draws and what the clock shows. A login registers its token after it has signed it. -/
inductive Call
  | login (body : Except String LoginRequest) (stamps : Stamps) (registered : Time)
      (later : stamps.refresh.now≤registered)
  | refresh (body : Except String Token) (stamps : Stamps) (now checked : Time)

namespace Call

def stamps : Call → Stamps
  | login _ stamps _ _ => stamps
  | refresh _ stamps _ _ => stamps

/-- The call presents a token with this id that the secret has signed. -/
def Uses (secret jti : String) : Call → Prop
  | login _ _ _ _ => False
  | refresh body _ _ _ => ∃ method claims, body = .ok (.signed method secret claims) ∧ claims.id = jti

def IsLogin : Call → Prop
  | login _ _ _ _ => True
  | refresh _ _ _ _ => False

end Call

namespace Service
variable [AuthLibraries] (s : Service)

def perform (rdb : Option Redis) : Call → Reply × Option Redis
  | .login body stamps registered _ => s.login rdb stamps registered body
  | .refresh body stamps now checked => s.refresh rdb now checked stamps body

def trace (rdb : Option Redis) : List Call → List (Call × Reply)
  | [] => []
  | c::calls => (c,(s.perform rdb c).1)::trace (s.perform rdb c).2 calls

def after (rdb : Option Redis) : List Call → Option Redis
  | [] => rdb
  | c::calls => after (s.perform rdb c).2 calls

def Accepts (rdb : Option Redis) (now checked : Time) (stamps : Stamps) (token : Token) : Prop :=
  ∃ access refresh expiresIn, (s.refresh rdb now checked stamps (.ok token)).1 = .refreshed access refresh expiresIn

/-- A token that some call of the run has returned, that none has presented, and that has not expired. -/
structure Outstanding (rdb : Option Redis) (calls : List Call) (checked : Time) (token : Token) : Prop where
  returned : ∃ entry ∈ s.trace rdb calls, entry.2.refreshToken = some token
  unused : ∀ claims ∈ token.claims, ∀ c ∈ calls, ¬c.Uses s.jwt.secret claims.id
  current : ∀ claims ∈ token.claims, claims.Current checked

end Service

/-- The refresh ids that a run draws are new. -/
structure Fresh (r : Redis) (calls : List Call) : Prop where
  distinct : (calls.map fun c => c.stamps.refresh.jti).Nodup
  unregistered : ∀ c ∈ calls, r.entries (refreshKey c.stamps.refresh.jti) = none

/-- A call can only change what stands under this id if it is a login that draws it or a refresh that presents it. -/
def Call.Touches (secret jti : String) (c : Call) : Prop := c.IsLogin ∧ c.stamps.refresh.jti = jti ∨
    c.Uses secret jti

section Step
variable [AuthLibraries] {s : Service} {r : Redis} {now checked : Time} {stamps : Stamps} {c : Call} {jti : String}
  {token : Token}

/-- What a login does: it fails and changes nothing, or it returns a token and registers it. -/
lemma login_cases (s : Service) (r : Redis) (stamps : Stamps) (registered : Time)
    (body : Except String LoginRequest) :
    ((s.login (some r) stamps registered body).1.refreshToken = none ∧
      (s.login (some r) stamps registered body).2 = some r) ∨
      ∃ u : User, (s.users.findByID u.id).isSome ∧
        (s.login (some r) stamps registered body).1.refreshToken = some (s.jwt.signRefresh u.id stamps.refresh) ∧
        (s.login (some r) stamps registered body).2 =
          some (r.set registered (refreshKey stamps.refresh.jti) u.id s.jwt.refreshTTL) := by
  cases body with
  | error e => exact .inl ⟨rfl,rfl⟩
  | ok req =>
    simp only [Service.login]
    cases hfind : s.users.findByUsername req.username with
    | none => exact .inl ⟨rfl,rfl⟩
    | some u =>
      dsimp only
      split
      · exact .inr ⟨u,s.users.found _ u hfind,rfl,rfl⟩
      · exact .inl ⟨rfl,rfl⟩

lemma parseRefresh_cases (s : Service) (now : Time) (body : Except String Token) :
    (∃ reply, s.parseRefresh now body = .error reply ∧ reply.refreshToken = none) ∨
      ∃ method claims, body = .ok (.signed method s.jwt.secret claims) ∧ s.parseRefresh now body = .ok claims := by
  cases body with
  | error e => exact .inl ⟨_,rfl,rfl⟩
  | ok token =>
    rw [Service.parseRefresh]
    cases hparse : s.jwt.parse now token with
    | error e => exact .inl ⟨_,rfl,rfl⟩
    | ok claims =>
      obtain ⟨⟨method,rfl,-⟩,-⟩ := parseWithClaims_eq_ok_iff.mp hparse
      dsimp only
      split
      · exact .inr ⟨method,claims,rfl,rfl⟩
      · exact .inl ⟨_,rfl,rfl⟩

/-- What a refresh does: it fails and changes nothing, or it presents a token and deletes its key. -/
lemma refresh_cases (s : Service) {r : Redis} (hup : r.up = true) (now checked : Time) (stamps : Stamps)
    (body : Except String Token) :
    ((s.refresh (some r) now checked stamps body).1.refreshToken = none ∧
      (s.refresh (some r) now checked stamps body).2 = some r) ∨
      ∃ method claims, body = .ok (.signed method s.jwt.secret claims) ∧
        s.refresh (some r) now checked stamps body =
          (s.reissue stamps claims,some (r.del (refreshKey claims.id))) := by
  obtain ⟨reply,hparse,hreply⟩ | ⟨method,claims,rfl,hparse⟩ := parseRefresh_cases s now body
  · refine .inl ⟨?_,?_⟩
    · rw [Service.refresh,hparse]
      exact hreply
    · rw [Service.refresh,hparse]
  · rw [Service.refresh,hparse]
    dsimp only
    rw [checkRegistered_of_up hup]
    split_ifs
    · exact .inr ⟨method,claims,rfl,rfl⟩
    · exact .inl ⟨rfl,rfl⟩

lemma perform_frame (s : Service) (hup : r.up = true) (c : Call) :
    ∃ r', (s.perform (some r) c).2 = some r' ∧ r'.up = true ∧
      ∀ jti, ¬c.Touches s.jwt.secret jti → r'.entries (refreshKey jti) = r.entries (refreshKey jti) := by
  cases c with
  | login body stamps registered later =>
    obtain ⟨-,h⟩ | ⟨u,-,-,h⟩ := login_cases s r stamps registered body
    · exact ⟨r,h,hup,fun _ _ => rfl⟩
    · refine ⟨_,h,by simpa using hup,fun jti hjti => (entries_set hup).trans (if_neg fun hkey => ?_)⟩
      exact hjti (.inl ⟨trivial,(refreshKey_inj.mp hkey).symm⟩)
  | refresh body stamps now checked =>
    obtain ⟨-,h⟩ | ⟨method,claims,hbody,h⟩ := refresh_cases s hup now checked stamps body
    · exact ⟨r,h,hup,fun _ _ => rfl⟩
    · refine ⟨_,congrArg Prod.snd h,by simpa using hup,
        fun jti hjti => (entries_del hup).trans (if_neg fun hkey => ?_)⟩
      exact hjti (.inr ⟨method,claims,hbody,(refreshKey_inj.mp hkey).symm⟩)

/-- A token that a call returns bears the call's stamp and the id of a user that exists; a login registers it. -/
lemma returned_cases (hup : r.up = true) (h : (s.perform (some r) c).1.refreshToken = some token) :
    ∃ u : User, (s.users.findByID u.id).isSome ∧ token = s.jwt.signRefresh u.id c.stamps.refresh ∧
      (c.IsLogin → ∃ registered, c.stamps.refresh.now≤registered ∧
        (s.perform (some r) c).2 =
          some (r.set registered (refreshKey c.stamps.refresh.jti) u.id s.jwt.refreshTTL)) := by
  cases c with
  | login body stamps registered later =>
    obtain ⟨hnone,-⟩ | ⟨u,hu,htoken,hset⟩ := login_cases s r stamps registered body
    · exact absurd (hnone.symm.trans h) (by simp)
    · exact ⟨u,hu,Option.some.inj (h.symm.trans htoken),fun _ => ⟨registered,later,hset⟩⟩
  | refresh body stamps now checked =>
    obtain ⟨hnone,-⟩ | ⟨_,claims,-,hrefresh⟩ := refresh_cases s hup now checked stamps body
    · exact absurd (hnone.symm.trans h) (by simp)
    · rw [Service.perform,hrefresh] at h
      obtain ⟨u,hfind,rfl⟩ := Service.refreshToken_reissue.mp h
      refine ⟨u,?_,rfl,False.elim⟩
      rw [s.users.keyed _ u hfind,hfind]
      rfl

end Step

section Runs
variable [AuthLibraries] {s : Service} {r : Redis} {now checked : Time} {stamps : Stamps} {calls : List Call}
  {token : Token}

lemma after_frame (s : Service) (hup : r.up = true) (calls : List Call) :
    ∃ r', s.after (some r) calls = some r' ∧ r'.up = true ∧
      ∀ jti, (∀ c ∈ calls, ¬c.Touches s.jwt.secret jti) →
        r'.entries (refreshKey jti) = r.entries (refreshKey jti) := by
  induction calls generalizing r with
  | nil => exact ⟨r,rfl,hup,fun _ _ => rfl⟩
  | cons c calls ih =>
    obtain ⟨r₁,h₁,hup₁,hframe₁⟩ := perform_frame s hup c
    obtain ⟨r₂,h₂,hup₂,hframe₂⟩ := ih hup₁
    refine ⟨r₂,by rw [Service.after,h₁,h₂],hup₂,fun jti hjti => ?_⟩
    rw [hframe₂ jti fun c hc => hjti c (mem_cons_of_mem _ hc),hframe₁ jti (hjti c mem_cons_self)]

lemma after_append (rdb : Option Redis) (before later : List Call) :
    s.after rdb (before++later) = s.after (s.after rdb before) later := by
  induction before generalizing rdb with
  | nil => rfl
  | cons c before ih => exact ih _

lemma mem_trace {rdb : Option Redis} {entry : Call × Reply} (h : entry ∈ s.trace rdb calls) :
    ∃ before later, calls = before++entry.1::later ∧ entry.2 = (s.perform (s.after rdb before) entry.1).1 := by
  induction calls generalizing rdb with
  | nil => cases h
  | cons c calls ih =>
    obtain rfl | h := mem_cons.mp h
    · exact ⟨[],calls,rfl,rfl⟩
    · obtain ⟨before,later,rfl,hreply⟩ := ih h
      exact ⟨c::before,later,rfl,hreply⟩

lemma accepts_signRefresh_iff {u : User} {stamp : Stamp} (hup : r.up = true) (hu : (s.users.findByID u.id).isSome)
    (hnow : now < Service.deadline s.jwt stamp) :
    s.Accepts (some r) now checked stamps (s.jwt.signRefresh u.id stamp) ↔
      r.Holds checked (refreshKey stamp.jti) := by
  obtain ⟨v,hv⟩ := Option.isSome_iff_exists.mp hu
  have hreissue : s.reissue stamps (s.jwt.refreshClaims u.id stamp) =
      .refreshed (s.jwt.signAccess v.id v.role stamps.access) (s.jwt.signRefresh v.id stamps.refresh)
        s.expiresIn := by
    rw [Service.reissue,JWTManager.refreshClaims,hv]
  rw [Service.Accepts,Service.refresh,Service.parseRefresh_signRefresh,if_pos hnow]
  dsimp only
  rw [checkRegistered_of_up hup,show (s.jwt.refreshClaims u.id stamp).id = stamp.jti from rfl]
  split_ifs with hholds
  · exact ⟨fun _ => hholds,fun _ => ⟨_,_,_,hreissue⟩⟩
  · simp [hholds]

omit [AuthLibraries] in
lemma numericDate_mul_second_le (t : Time) : numericDate t*second ≤ t := Nat.div_mul_le_self t second

/-- The run has returned the token at one of its calls, which no other call touches. -/
lemma accepts_returned_iff {before later : List Call} {c : Call} (hup : r.up = true)
    (hfresh : Fresh r (before++c::later)) (hclock : now≤checked)
    (hreturned : (s.perform (s.after (some r) before) c).1.refreshToken = some token)
    (hunused : ∀ claims ∈ token.claims, ∀ c' ∈ before++c::later, ¬c'.Uses s.jwt.secret claims.id)
    (hcurrent : ∀ claims ∈ token.claims, claims.Current checked) :
    s.Accepts (s.after (some r) (before++c::later)) now checked stamps token ↔ c.IsLogin := by
  obtain ⟨r₁,h₁,hup₁,hframe₁⟩ := after_frame s hup before
  obtain ⟨r₂,h₂,hup₂,hframe₂⟩ := perform_frame s hup₁ c
  obtain ⟨r₃,h₃,hup₃,hframe₃⟩ := after_frame s hup₂ later
  rw [h₁] at hreturned
  obtain ⟨u,hu,rfl,hregister⟩ := returned_cases hup₁ hreturned
  have hexp : checked < Service.deadline s.jwt c.stamps.refresh := (hcurrent _ rfl).1 _ rfl
  have hafter : s.after (some r) (before++c::later) = some r₃ := by rw [after_append,h₁,Service.after,h₂,h₃]
  rw [hafter,accepts_signRefresh_iff hup₃ hu (hclock.trans_lt hexp)]
  -- Nobody uses the id, and the other logins draw other ids.
  have hdistinct := hfresh.distinct
  rw [map_append,map_cons,nodup_append,nodup_cons] at hdistinct
  obtain ⟨-,⟨hnotlater,-⟩,hbefore⟩ := hdistinct
  have huntouched {c' : Call} (hmem : c' ∈ before ∨ c' ∈ later) : ¬c'.Touches s.jwt.secret c.stamps.refresh.jti := by
    rintro (⟨-,hjti⟩ | huses)
    · obtain hmem | hmem := hmem
      · exact hbefore _ (mem_map_of_mem hmem) _ mem_cons_self hjti
      · exact hnotlater (hjti ▸ mem_map_of_mem hmem)
    · exact hunused _ rfl c' (by simp only [mem_append,mem_cons]; tauto) huses
  have hentries := hframe₃ c.stamps.refresh.jti fun c' hc' => huntouched (.inr hc')
  rw [Redis.Holds,hentries]
  constructor
  · rintro ⟨entry,hentry,-⟩
    by_contra hrefresh
    have hc : ¬c.Touches s.jwt.secret c.stamps.refresh.jti := by
      rintro (⟨hlogin,-⟩ | huses)
      · exact hrefresh hlogin
      · exact hunused _ rfl c (by simp) huses
    rw [hframe₂ _ hc,hframe₁ _ fun c' hc' => huntouched (.inl hc'),hfresh.unregistered c (by simp)] at hentry
    cases hentry
  · intro hlogin
    obtain ⟨registered,hle,hset⟩ := hregister hlogin
    rw [h₂] at hset
    cases hset
    refine ⟨(u.id,registered+s.jwt.refreshTTL),?_,?_⟩
    · rw [entries_set hup₁]
      exact if_pos rfl
    · calc checked < _ := hexp
        _≤c.stamps.refresh.now+s.jwt.refreshTTL := numericDate_mul_second_le _
        _≤registered+s.jwt.refreshTTL := Nat.add_le_add_right hle _

/-- After every run, an outstanding token is accepted exactly if a login returned it. -/
theorem accepts_outstanding_iff_of_login (hup : r.up = true) (hfresh : Fresh r calls) (hclock : now≤checked)
    (houtstanding : s.Outstanding (some r) calls checked token) :
    s.Accepts (s.after (some r) calls) now checked stamps token ↔
      ∃ entry ∈ s.trace (some r) calls, entry.1.IsLogin ∧ entry.2.refreshToken = some token := by
  have hiff {entry : Call × Reply} (hmem : entry ∈ s.trace (some r) calls)
    (htoken : entry.2.refreshToken = some token) :
      s.Accepts (s.after (some r) calls) now checked stamps token ↔ entry.1.IsLogin := by
    obtain ⟨before,later,rfl,hreply⟩ := mem_trace hmem
    exact accepts_returned_iff hup hfresh hclock (hreply ▸ htoken) houtstanding.unused houtstanding.current
  constructor
  · intro haccepts
    obtain ⟨entry,hmem,htoken⟩ := houtstanding.returned
    exact ⟨entry,hmem,(hiff hmem htoken).mp haccepts,htoken⟩
  · rintro ⟨entry,hmem,hlogin,htoken⟩
    exact (hiff hmem htoken).mpr hlogin

end Runs

section Session

def alice : User := ⟨"1","alice","hash","reader"⟩

def aliceService : Service :=
  ⟨(UserStore.new.create alice).getD .new,.new "secret",fun password hash => password = hash⟩

def emptyRedis : Redis := ⟨fun _ => none,true⟩

def firstStamps : Stamps := ⟨⟨"a1",0,0,by decide⟩,⟨"r1",0,0,by decide⟩⟩

def secondStamps : Stamps := ⟨⟨"a2",0,0,by decide⟩,⟨"r2",0,0,by decide⟩⟩

def firstRefreshToken : Token := aliceService.jwt.signRefresh "1" firstStamps.refresh

def secondRefreshToken : Token := aliceService.jwt.signRefresh "1" secondStamps.refresh

def aliceLogin : Call := .login (.ok ⟨"alice","hash"⟩) firstStamps 0 (le_refl _)

def aliceRefresh : Call := .refresh (.ok firstRefreshToken) secondStamps 0 0

lemma fresh_aliceLogin : Fresh emptyRedis [aliceLogin] := ⟨by simp,fun _ _ => rfl⟩

lemma current_refreshClaims {stamp : Stamp} (hnow : stamp.now = 0) :
    ∀ claims ∈ (aliceService.jwt.signRefresh "1" stamp).claims, claims.Current 0 := by
  rintro _ ⟨⟩
  refine ⟨?_,by rintro _ ⟨⟩⟩
  rintro _ ⟨⟩
  rw [hnow]
  decide

/-- The token of a login is accepted. -/
theorem accepts_firstRefreshToken :
    aliceService.Outstanding (some emptyRedis) [aliceLogin] 0 firstRefreshToken ∧
      aliceService.Accepts (aliceService.after (some emptyRedis) [aliceLogin]) 0 0 secondStamps
        firstRefreshToken := by
  have hreturned : (aliceService.perform (some emptyRedis) aliceLogin).1.refreshToken =
    some firstRefreshToken := by decide +kernel
  have houtstanding : aliceService.Outstanding (some emptyRedis) [aliceLogin] 0 firstRefreshToken :=
    ⟨⟨_,mem_cons_self,hreturned⟩,by simp [aliceLogin,Call.Uses],current_refreshClaims rfl⟩
  exact ⟨houtstanding,(accepts_outstanding_iff_of_login rfl fresh_aliceLogin le_rfl houtstanding).mpr
    ⟨_,mem_cons_self,trivial,hreturned⟩⟩

/-- The token of a refresh is refused, although nobody has used it. -/
theorem secondRefreshToken_revoked :
    Fresh emptyRedis [aliceLogin,aliceRefresh] ∧
      aliceService.Outstanding (some emptyRedis) [aliceLogin,aliceRefresh] 0 secondRefreshToken ∧
      (aliceService.refresh (aliceService.after (some emptyRedis) [aliceLogin,aliceRefresh]) 0 0 firstStamps
        (.ok secondRefreshToken)).1 = .failed 401 "refresh token revoked" := by
  refine ⟨⟨by decide,fun _ _ => rfl⟩,⟨⟨_,mem_cons_of_mem _ mem_cons_self,?_⟩,?_,current_refreshClaims rfl⟩,?_⟩
  · decide +kernel
  · rintro _ ⟨⟩ c hc
    simp only [mem_cons,not_mem_nil,or_false] at hc
    obtain rfl | rfl := hc
    · exact id
    · rintro ⟨_,_,⟨⟩,hid⟩
      exact absurd hid (by decide)
  · decide +kernel

end Session
end TitanKV.Services.Auth
