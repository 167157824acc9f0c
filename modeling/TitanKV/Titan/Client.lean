import TitanKV.Services.Data.Handler

/-! The client of the SDK and the handlers that answer it. A value goes to the service in a JSON body, and comes back
in another one. -/
namespace TitanKV.Titan
open Minikv Services.Data Utf8

/-- The typed errors of the SDK and what it passes on from the transport, the context and a callback. -/
inductive ClientError
  | notFound
  | conflict
  | unauthorized
  | forbidden
  | rateLimited
  | invalidArgument
  | internal
  | http (code : ℕ)
  | transport
  | unexpectedEOF
  | cancelled
  | callback
  deriving DecidableEq,Repr

def mapError (code : ℕ) : ClientError :=
  if code = 404 then .notFound
  else if code = 409 then .conflict
  else if code = 401 then .unauthorized
  else if code = 403 then .forbidden
  else if code = 429 then .rateLimited
  else if code = 400 then .invalidArgument
  else if 500≤code then .internal
  else .http code

def isRetryableStatus (code : ℕ) : Bool := 500≤code ∨ code = 429

/-- What becomes of a request on its way. The gateway may answer it itself, and an answer of the service may be lost
or end early; `fails` is the error of the store. -/
inductive Passage
  | unreachable
  | refused (status : ℕ) (notOk : status ≠ 200)
  | lost (fails : Option Bytes)
  | answered (fails : Option Bytes) (cut : Option ℕ)

structure Client where
  maxRetries : ℤ := 3

namespace Client

/-- `Put`: its error and what is stored then. The keys of the map are written in order. -/
def put [JsonBinding] (store : Directory Bytes Bytes) (passage : Passage) (key value : Bytes) :
    Option ClientError × Directory Bytes Bytes :=
  let body := (KVPair.mk key value).marshal
  match passage with
  | .unreachable => (some .transport,store)
  | .refused status _ => (some (mapError status),store)
  | .lost fails => (some .transport,(Service.put store body fails).2)
  | .answered fails _ =>
    let resp := Service.put store body fails
    (if resp.1 = 200 then none else some (mapError resp.1),resp.2)

/-- `doGet`: the status, what arrives of the body, and whether that is all of it. -/
def doGet (store : Directory Bytes Bytes) (passage : Passage) (key : Bytes) : Option (ℕ × Bytes × Bool) :=
  match passage with
  | .unreachable => none
  | .lost _ => none
  | .refused status _ => some (status,[],true)
  | .answered fails cut =>
    let resp := Service.get store key fails
    some (resp.1,(cut.elim resp.2 resp.2.take),cut.all (resp.2.length ≤ ·))

/-- The attempts of `Get`. The network and the context are asked at each of them: what becomes of the request, and
whether the context is done before the next one. -/
def getLoop (store : Directory Bytes Bytes) (key : Bytes) (net : ℕ → Passage × Bool) :
    ℕ → ℕ → Option ClientError → Bytes × Option ClientError
  | 0,_,lastErr => ([],lastErr)
  | n+1,i,_ =>
    let again (err : ClientError) :=
      if (net i).2 then ([],some .cancelled) else getLoop store key net n (i+1) (some err)
    match doGet store (net i).1 key with
    | none => again .transport
    | some (status,body,whole) =>
      if status = 200 then (body,if whole then none else some .unexpectedEOF)
      else if isRetryableStatus status then again (mapError status)
      else ([],some (mapError status))

def get (c : Client) (store : Directory Bytes Bytes) (net : ℕ → Passage × Bool) (key : Bytes) :
    Bytes × Option ClientError :=
  getLoop store key net (c.maxRetries+1).toNat 0 none

end Client

/-- After a `Put` without an error, and as long as nothing else writes the key, a `Get` that the service answers
returns the value. -/
def GetsBack [JsonBinding] (key value : Bytes) : Prop :=
  ∀ (c : Client) (store store' : Directory Bytes Bytes) (passage : Passage) (net : ℕ → Passage × Bool),
    (Client.put store passage key value).1 = none → store'.get key = (Client.put store passage key value).2.get key →
      0≤c.maxRetries → (net 0).1 = .answered none none → c.get store' net key = (value,none)

lemma Client.ne_nil_of_put [JsonBinding] {store : Directory Bytes Bytes} {passage : Passage} {key value : Bytes}
    (h : (put store passage key value).1 = none) : ¬(key = [] ∨ value = []) := by
  intro hnil
  cases passage with
  | unreachable | refused | lost => cases h
  | answered fails =>
    rw [put,Service.put,bindPut_marshal,if_pos hnil] at h
    cases h

lemma Client.get_of_answered {c : Client} (hc : 0≤c.maxRetries) {net : ℕ → Passage × Bool}
    (hnet : (net 0).1 = .answered none none) {store : Directory Bytes Bytes} {key : Bytes} (hkey : key ≠ []) :
    c.get store net key =
      (store.get key).elim ([],some .notFound) fun v => ((KVPair.mk key v).marshal,none) := by
  obtain ⟨n,hn⟩ : ∃ n, (c.maxRetries+1).toNat = n+1 := ⟨c.maxRetries.toNat,by omega⟩
  have hnotFound : isRetryableStatus 404 = false := by decide
  cases hget : store.get key with
  | none => simp [get,getLoop,hn,doGet,hnet,Service.get,hkey,hget,hnotFound,mapError]
  | some v => simp [get,getLoop,hn,doGet,hnet,Service.get,hkey,hget]

/-- What is returned is the body of the answer, which the value is only a part of. -/
theorem getsBack_iff [JsonBinding] {key value : Bytes} : GetsBack key value ↔ key = [] ∨ value = [] := by
  constructor
  · intro h
    by_contra hne
    have hput : Client.put [] (.answered none none) key value =
        (none,[(toValid key,toValid value)]) := by
      rw [Client.put,Service.put,bindPut_marshal,if_neg hne]
      rfl
    have hback := h {} [] _ (.answered none none) (fun _ => (.answered none none,false)) (by rw [hput]) rfl
      (by decide) rfl
    rw [Client.get_of_answered (by decide) rfl fun hnil => hne (.inl hnil),hput] at hback
    by_cases hvalid : toValid key = key
    · have hmarshal : (KVPair.mk key (toValid value)).marshal = value := by
        simpa [Directory.get,hvalid] using hback
      have hlt : (toValid value).length<(KVPair.mk key (toValid value)).marshal.length :=
        KVPair.length_value_lt_marshal ⟨key,toValid value⟩
      rw [hmarshal] at hlt
      exact absurd (length_le_toValid value) (Nat.not_le.mpr hlt)
    · simp [Directory.get,hvalid] at hback
  · intro hnil c store store' passage net hput
    exact absurd hnil (Client.ne_nil_of_put hput)

/-- A put of `v` under `k` succeeds, and the get that follows returns `{"key":"k","value":"v"}`. -/
theorem get_returns_body :
    (Client.put [] (.answered none none) [107] [118]).1 = none ∧
    ({} : Client).get (Client.put [] (.answered none none) [107] [118]).2
        (fun _ => (.answered none none,false)) [107] =
      ((KVPair.mk [107] [118]).marshal,none) ∧ (KVPair.mk [107] [118]).marshal ≠ [118] := by
  decide +kernel

end TitanKV.Titan
