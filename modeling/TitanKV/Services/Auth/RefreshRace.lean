import TitanKV.Services.Auth.RefreshRotation

/-! Concurrent refresh requests that carry the same token. A request takes its parts in turns: it parses the token,
issues its `EXISTS`, issues its `DEL` and answers. All requests whose `EXISTS` comes before the first `DEL` pass. -/
namespace TitanKV.Services.Auth
open Function

structure Turn where
  request : ℕ
  now : Time
  stamps : Stamps

structure Race where
  rdb : Redis
  stages : ℕ → RefreshStage

namespace Service
variable [AuthLibraries] (s : Service)

def turn (race : Race) (t : Turn) : Race :=
  { rdb := (s.advance t.now t.stamps race.rdb (race.stages t.request)).2
    stages := Function.update race.stages t.request (s.advance t.now t.stamps race.rdb (race.stages t.request)).1 }

/-- The race after the turns of a schedule, the latest of which comes first. -/
def race (r : Redis) (token : Token) : List Turn → Race
  | [] => ⟨r,fun _ => .arrived (.ok token)⟩
  | t::past => s.turn (race r token past) t

end Service

def taken (past : List Turn) (i : ℕ) : ℕ := past.countP fun t => t.request = i

/-- The request has had its turns before the token expires. -/
def InTime (s : Service) (stamp : Stamp) (past : List Turn) (i : ℕ) : Prop :=
  ∀ t ∈ past, t.request = i → t.now < Service.deadline s.jwt stamp

instance (s : Service) (stamp : Stamp) (past : List Turn) (i : ℕ) : Decidable (InTime s stamp past i) :=
  inferInstanceAs (Decidable (∀ t ∈ past, t.request = i → t.now < Service.deadline s.jwt stamp))

/-- The requests that parse the token before it expires and issue their `EXISTS` while the token is registered
and before any of them issues its `DEL`. -/
def passing (s : Service) (r : Redis) (stamp : Stamp) : List Turn → List ℕ
  | [] => []
  | t::past =>
    if taken past t.request = 1 ∧ InTime s stamp past t.request ∧ r.Holds t.now (refreshKey stamp.jti) ∧
        ∀ i ∈ passing s r stamp past, taken past i = 2 then t.request::passing s r stamp past
    else passing s r stamp past

def Race.Answers (race : Race) (i : ℕ) : Prop :=
  ∃ access refresh expiresIn, race.stages i = .answered (.refreshed access refresh expiresIn)

def Race.SingleUse (race : Race) : Prop := ∀ i j, race.Answers i → race.Answers j → i = j

section Schedule
variable {s : Service} {r : Redis} {stamp : Stamp} {past : List Turn} {t : Turn} {i : ℕ}

lemma taken_cons_self : taken (t::past) t.request = taken past t.request+1 := by simp [taken]

lemma taken_cons_of_ne (h : i ≠ t.request) : taken (t::past) i = taken past i := by simp [taken,h.symm]

lemma inTime_cons_of_ne (h : i ≠ t.request) : InTime s stamp (t::past) i ↔ InTime s stamp past i := by
  simp [InTime,h.symm]

lemma inTime_cons_self (h : taken past t.request = 0) :
    InTime s stamp (t::past) t.request ↔ t.now < Service.deadline s.jwt stamp := by
  rw [taken,List.countP_eq_zero] at h
  constructor
  · intro hparsed
    exact hparsed t List.mem_cons_self rfl
  · intro hnow t' ht' hi
    obtain rfl | ht' := List.mem_cons.mp ht'
    · exact hnow
    · exact absurd (decide_eq_true hi) (h t' ht')

/-- The condition under which the turn is an `EXISTS` that finds the key. -/
def Passes (s : Service) (r : Redis) (stamp : Stamp) (past : List Turn) (t : Turn) : Prop :=
  taken past t.request = 1 ∧ InTime s stamp past t.request ∧ r.Holds t.now (refreshKey stamp.jti) ∧
    ∀ i ∈ passing s r stamp past, taken past i = 2

lemma passing_cons_of_passes (h : Passes s r stamp past t) :
    passing s r stamp (t::past) = t.request::passing s r stamp past :=
  if_pos h

lemma passing_cons_of_not_passes (h : ¬Passes s r stamp past t) :
    passing s r stamp (t::past) = passing s r stamp past :=
  if_neg h

lemma mem_passing_cons_of_ne (h : i ≠ t.request) : i ∈ passing s r stamp (t::past) ↔ i ∈ passing s r stamp past := by
  by_cases hpasses : Passes s r stamp past t
  · simp [passing_cons_of_passes hpasses,h]
  · rw [passing_cons_of_not_passes hpasses]

lemma two_le_taken_of_mem_passing (h : i ∈ passing s r stamp past) : 2 ≤ taken past i := by
  induction past with
  | nil => cases h
  | cons t past ih =>
    by_cases hi : i = t.request
    · subst hi
      rw [taken_cons_self]
      by_cases hpasses : Passes s r stamp past t
      · exact le_of_eq (by rw [hpasses.1])
      · rw [passing_cons_of_not_passes hpasses] at h
        exact Nat.le_succ_of_le (ih h)
    · rw [taken_cons_of_ne hi]
      exact ih ((mem_passing_cons_of_ne hi).mp h)

/-- No request has issued its `DEL` yet. -/
def Unconsumed (s : Service) (r : Redis) (stamp : Stamp) (past : List Turn) : Prop :=
  ∀ i ∈ passing s r stamp past, taken past i = 2

lemma unconsumed_cons_of_passes (h : Passes s r stamp past t) : Unconsumed s r stamp (t::past) := by
  intro i hi
  by_cases hne : i = t.request
  · rw [hne,taken_cons_self,h.1]
  · rw [taken_cons_of_ne hne]
    exact h.2.2.2 i ((mem_passing_cons_of_ne hne).mp hi)

lemma unconsumed_cons_of_not_mem (h : t.request ∉ passing s r stamp (t::past)) :
    Unconsumed s r stamp (t::past) ↔ Unconsumed s r stamp past := by
  have hpasses : ¬Passes s r stamp past t := fun hpasses => h (by simp [passing_cons_of_passes hpasses])
  rw [passing_cons_of_not_passes hpasses] at h
  rw [Unconsumed,Unconsumed,passing_cons_of_not_passes hpasses]
  refine forall₂_congr fun i hi => ?_
  rw [taken_cons_of_ne fun heq => h (heq ▸ hi)]

lemma not_unconsumed_of_two_lt (hi : i ∈ passing s r stamp past) (htaken : 2 < taken past i) :
    ¬Unconsumed s r stamp past :=
  fun h => htaken.ne' (h i hi)

end Schedule

section Tracking
variable {s : Service} {r rdb : Redis} {userID : String} {stamp : Stamp} {past : List Turn} {race : Race} {t : Turn}
  {stage : RefreshStage}

/-- Where a request stands after `n` turns. -/
def Stands (s : Service) (userID : String) (stamp : Stamp) (n : ℕ) (parsed passes : Prop) : RefreshStage → Prop
  | .arrived body => n = 0 ∧ body = .ok (s.jwt.signRefresh userID stamp)
  | .parsed claims => n = 1 ∧ parsed ∧ claims = s.jwt.refreshClaims userID stamp
  | .checked claims => n = 2 ∧ passes ∧ claims = s.jwt.refreshClaims userID stamp
  | .consumed claims => n = 3 ∧ passes ∧ claims = s.jwt.refreshClaims userID stamp
  | .answered reply =>
    (¬passes ∧ reply.refreshToken = none ∧ 1≤n ∧ (n = 1 → ¬parsed)) ∨
      passes ∧ 4≤n ∧ ∃ stamps, reply = s.reissue stamps (s.jwt.refreshClaims userID stamp)

/-- The race is where the schedule says: the requests stand at their turns, and the key is registered until the first
`DEL`. -/
structure Tracks (s : Service) (r : Redis) (userID : String) (stamp : Stamp) (past : List Turn) (race : Race) :
    Prop where
  up : race.rdb.up = true
  stands : ∀ i, Stands s userID stamp (taken past i) (InTime s stamp past i)
    (i ∈ passing s r stamp past) (race.stages i)
  registered : Unconsumed s r stamp past →
    race.rdb.entries (refreshKey stamp.jti) = r.entries (refreshKey stamp.jti)
  consumed : ¬Unconsumed s r stamp past → race.rdb.entries (refreshKey stamp.jti) = none

section
variable [AuthLibraries] (h : Tracks s r userID stamp past race)
include h

lemma Tracks.cons
    (hadvance : s.advance t.now t.stamps race.rdb (race.stages t.request) = (stage,rdb)) (hup : rdb.up = true)
    (hstands : Stands s userID stamp (taken past t.request+1) (InTime s stamp (t::past) t.request)
      (t.request ∈ passing s r stamp (t::past)) stage)
    (hregistered : Unconsumed s r stamp (t::past) →
      rdb.entries (refreshKey stamp.jti) = r.entries (refreshKey stamp.jti))
    (hconsumed : ¬Unconsumed s r stamp (t::past) → rdb.entries (refreshKey stamp.jti) = none) :
    Tracks s r userID stamp (t::past) (s.turn race t) := by
  have hrdb : (s.turn race t).rdb = rdb := congrArg Prod.snd hadvance
  have hstages : (s.turn race t).stages = Function.update race.stages t.request stage := by
    rw [← show (s.advance t.now t.stamps race.rdb (race.stages t.request)).1 = stage from congrArg Prod.fst hadvance]
    rfl
  refine ⟨hrdb ▸ hup,fun i => ?_,hrdb ▸ hregistered,hrdb ▸ hconsumed⟩
  rw [hstages]
  by_cases hi : i = t.request
  · subst hi
    rw [update_self,taken_cons_self]
    exact hstands
  · rw [update_of_ne hi,taken_cons_of_ne hi,inTime_cons_of_ne hi,mem_passing_cons_of_ne hi]
    exact h.stands i

/-- A turn of a request that does not pass leaves Redis and its state as they are. -/
lemma Tracks.cons_of_not_mem
    (hadvance : s.advance t.now t.stamps race.rdb (race.stages t.request) = (stage,race.rdb))
    (hmem : t.request ∉ passing s r stamp (t::past))
    (hstands : Stands s userID stamp (taken past t.request+1) (InTime s stamp (t::past) t.request) False stage) :
    Tracks s r userID stamp (t::past) (s.turn race t) := by
  refine h.cons hadvance h.up (by simpa only [hmem] using hstands) ?_ ?_
  · rw [unconsumed_cons_of_not_mem hmem]
    exact h.registered
  · rw [unconsumed_cons_of_not_mem hmem]
    exact h.consumed

/-- A turn of a request that has passed finds the key deleted or deletes it. -/
lemma Tracks.cons_of_mem
    (hadvance : s.advance t.now t.stamps race.rdb (race.stages t.request) = (stage,rdb)) (hup : rdb.up = true)
    (hmem : t.request ∈ passing s r stamp past) (hdeleted : rdb.entries (refreshKey stamp.jti) = none)
    (hstands : Stands s userID stamp (taken past t.request+1) (InTime s stamp (t::past) t.request) True stage) :
    Tracks s r userID stamp (t::past) (s.turn race t) := by
  have htaken := two_le_taken_of_mem_passing hmem
  have hpasses : ¬Passes s r stamp past t := fun hpasses => absurd hpasses.1 (by omega)
  have hmem' : t.request ∈ passing s r stamp (t::past) := by rwa [passing_cons_of_not_passes hpasses]
  have hconsumed : ¬Unconsumed s r stamp (t::past) := not_unconsumed_of_two_lt hmem' (by rw [taken_cons_self]; omega)
  exact h.cons hadvance hup (by simpa only [hmem'] using hstands) (fun hu => absurd hu hconsumed) fun _ => hdeleted

omit [AuthLibraries] in
lemma Tracks.holds_iff {now : Time} :
    race.rdb.Holds now (refreshKey stamp.jti) ↔
      r.Holds now (refreshKey stamp.jti) ∧ Unconsumed s r stamp past := by
  rw [Redis.Holds,Redis.Holds]
  by_cases hunconsumed : Unconsumed s r stamp past
  · simp [h.registered hunconsumed,hunconsumed]
  · simp [h.consumed hunconsumed,hunconsumed]

lemma Tracks.turn (t : Turn) :
    Tracks s r userID stamp (t::past) (s.turn race t) := by
  have hstands := h.stands t.request
  cases hstage : race.stages t.request with
  | arrived body =>
    rw [hstage] at hstands
    obtain ⟨htaken,rfl⟩ := hstands
    have hmem : t.request ∉ passing s r stamp (t::past) := by
      rw [passing_cons_of_not_passes fun hpasses => absurd hpasses.1 (by omega)]
      exact fun hmem => absurd (two_le_taken_of_mem_passing hmem) (by omega)
    have hadvance : s.advance t.now t.stamps race.rdb (race.stages t.request) =
        (if t.now < Service.deadline s.jwt stamp then .parsed (s.jwt.refreshClaims userID stamp)
          else .answered (.failed 401 "invalid refresh token"),race.rdb) := by
      rw [hstage,Service.advance,Service.parseRefresh_signRefresh]
      split_ifs <;> rfl
    refine h.cons_of_not_mem hadvance hmem ?_
    split_ifs with hnow
    · exact ⟨by omega,(inTime_cons_self htaken).mpr hnow,rfl⟩
    · exact .inl ⟨id,rfl,by omega,fun _ hparsed => hnow ((inTime_cons_self htaken).mp hparsed)⟩
  | parsed claims =>
    rw [hstage] at hstands
    obtain ⟨htaken,hparsed,rfl⟩ := hstands
    have hadvance : s.advance t.now t.stamps race.rdb (race.stages t.request) =
        (if race.rdb.Holds t.now (refreshKey stamp.jti) then .checked (s.jwt.refreshClaims userID stamp)
          else .answered (.failed 401 "refresh token revoked"),race.rdb) := by
      rw [hstage,Service.advance,checkRegistered_of_up h.up,
        show (s.jwt.refreshClaims userID stamp).id = stamp.jti from rfl]
      split_ifs <;> rfl
    have hpasses : Passes s r stamp past t ↔ race.rdb.Holds t.now (refreshKey stamp.jti) := by
      rw [h.holds_iff]
      exact ⟨fun hp => hp.2.2,fun hp => ⟨htaken,hparsed,hp⟩⟩
    by_cases hholds : race.rdb.Holds t.now (refreshKey stamp.jti)
    · rw [if_pos hholds] at hadvance
      have hunconsumed := unconsumed_cons_of_passes (hpasses.mpr hholds)
      refine h.cons hadvance h.up ⟨by omega,?_,rfl⟩ (fun _ => ?_) fun hconsumed => absurd hunconsumed hconsumed
      · simp [passing_cons_of_passes (hpasses.mpr hholds)]
      · exact h.registered (h.holds_iff.mp hholds).2
    · rw [if_neg hholds] at hadvance
      refine h.cons_of_not_mem hadvance ?_ (.inl ⟨id,rfl,by omega,by omega⟩)
      rw [passing_cons_of_not_passes fun hp => hholds (hpasses.mp hp)]
      exact fun hmem => absurd (two_le_taken_of_mem_passing hmem) (by omega)
  | checked claims =>
    rw [hstage] at hstands
    obtain ⟨htaken,hmem,rfl⟩ := hstands
    refine h.cons_of_mem (by rw [hstage,Service.advance]) (up_del.trans h.up) hmem ?_
      (show Stands _ _ _ _ _ _ (.consumed _) from ⟨by omega,trivial,rfl⟩)
    rw [entries_del h.up]
    exact if_pos rfl
  | consumed claims =>
    rw [hstage] at hstands
    obtain ⟨htaken,hmem,rfl⟩ := hstands
    exact h.cons_of_mem (by rw [hstage,Service.advance]) h.up hmem
      (h.consumed (not_unconsumed_of_two_lt hmem (by omega)))
      (show Stands _ _ _ _ _ _ (.answered _) from .inr ⟨trivial,by omega,t.stamps,rfl⟩)
  | answered reply =>
    have hadvance : s.advance t.now t.stamps race.rdb (race.stages t.request) = (.answered reply,race.rdb) := by
      rw [hstage,Service.advance]
    rw [hstage] at hstands
    obtain ⟨hmem,hreply,htaken,hparsed⟩ | ⟨hmem,htaken,stamps,hreply⟩ := hstands
    · have hmem' : t.request ∉ passing s r stamp (t::past) := by
        rwa [passing_cons_of_not_passes fun hpasses => hparsed hpasses.1 hpasses.2.1]
      exact h.cons_of_not_mem hadvance hmem' (.inl ⟨id,hreply,by omega,by omega⟩)
    · exact h.cons_of_mem hadvance h.up hmem (h.consumed (not_unconsumed_of_two_lt hmem (by omega)))
        (.inr ⟨trivial,by omega,stamps,hreply⟩)

end

variable [AuthLibraries]

lemma tracks_race (hup : r.up = true) (past : List Turn) :
    Tracks s r userID stamp past (s.race r (s.jwt.signRefresh userID stamp) past) := by
  induction past with
  | nil => exact ⟨hup,fun _ => ⟨rfl,rfl⟩,fun _ => rfl,fun h => absurd (fun _ hi => by cases hi) h⟩
  | cons t past ih => exact ih.turn t

/-- A request is answered with new tokens exactly if it passes, has all its turns, and the user exists. -/
lemma answers_iff (hup : r.up = true) (past : List Turn) (i : ℕ) :
    (s.race r (s.jwt.signRefresh userID stamp) past).Answers i ↔
      (s.users.findByID userID).isSome ∧ i ∈ passing s r stamp past ∧ 4 ≤ taken past i := by
  have htracks : Tracks s r userID stamp past (s.race r (s.jwt.signRefresh userID stamp) past) :=
    tracks_race hup past
  have hstands := htracks.stands i
  rw [Race.Answers]
  cases hstage : (s.race r (s.jwt.signRefresh userID stamp) past).stages i with
  | answered reply =>
    rw [hstage] at hstands
    obtain ⟨hmem,hreply,-⟩ | ⟨hmem,htaken,stamps,rfl⟩ := hstands
    · refine ⟨?_,fun h => absurd h.2.1 hmem⟩
      rintro ⟨access,refresh,expiresIn,h⟩
      cases h
      cases hreply
    · rw [Service.reissue,JWTManager.refreshClaims]
      cases s.users.findByID userID with
      | none => simp
      | some u => simp [hmem,htaken]
  | _ =>
    rw [hstage] at hstands
    refine ⟨by simp,fun h => absurd h.2.2 ?_⟩
    rw [hstands.1]
    decide

/-- The token is used once exactly if its user is gone or at most one of the requests that pass has all its turns. -/
theorem singleUse_iff (s : Service) (entries : String → Option (String × Time)) (userID : String) (stamp : Stamp)
    (past : List Turn) :
    (s.race ⟨entries,true⟩ (s.jwt.signRefresh userID stamp) past).SingleUse ↔
      s.users.findByID userID = none ∨
        ∀ i ∈ passing s ⟨entries,true⟩ stamp past, ∀ j ∈ passing s ⟨entries,true⟩ stamp past,
          4 ≤ taken past i → 4 ≤ taken past j → i = j := by
  have hanswers := @answers_iff s ⟨entries,true⟩ userID stamp _ rfl past
  constructor
  · intro hsingle
    rw [or_iff_not_imp_left,← ne_eq,← Option.isSome_iff_ne_none]
    intro huser i hi j hj htaken htaken'
    exact hsingle i j ((hanswers i).mpr ⟨huser,hi,htaken⟩) ((hanswers j).mpr ⟨huser,hj,htaken'⟩)
  · rintro hcondition i j hi hj
    obtain ⟨huser,hmem,htaken⟩ := (hanswers i).mp hi
    obtain ⟨-,hmem',htaken'⟩ := (hanswers j).mp hj
    obtain hnone | hone := hcondition
    · rw [hnone] at huser
      cases huser
    · exact hone i hmem j hmem' htaken htaken'

end Tracking

def loggedInEntries : String → Option (String × Time) :=
  (emptyRedis.set 0 (refreshKey firstStamps.refresh.jti) "1" aliceService.jwt.refreshTTL).entries

def turnOf (i : ℕ) : Turn := ⟨i,0,secondStamps⟩

/-- Two requests both issue their `EXISTS` before either issues its `DEL`, and both are answered with new tokens. -/
theorem not_singleUse_of_interleaved_exists :
    ¬(aliceService.race ⟨loggedInEntries,true⟩ firstRefreshToken ([0,1,0,1,0,1,0,1].map turnOf)).SingleUse := by
  intro hsingle
  have hanswers (i : ℕ) := @answers_iff aliceService ⟨loggedInEntries,true⟩ "1" firstStamps.refresh _ rfl
    ([0,1,0,1,0,1,0,1].map turnOf) i
  have h := hsingle 0 1 ((hanswers 0).mpr (by decide +kernel)) ((hanswers 1).mpr (by decide +kernel))
  exact absurd h (by decide)

end TitanKV.Services.Auth
