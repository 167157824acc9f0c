import TitanKV.Distributed.Fsm

/-! The handlers of the data service. A pair is put as the body of a request, asked for by its key, and scanned as a
stream of events. -/
namespace TitanKV.Services.Data
open Minikv Json Distributed.JsonText List

structure KVPair where
  key : Bytes
  value : Bytes
  deriving DecidableEq,Repr

namespace KVPair

def toValid (p : KVPair) : KVPair := ⟨Utf8.toValid p.key,Utf8.toValid p.value⟩

def marshal (p : KVPair) : Bytes := object [(keyName,p.key),(valueName,p.value)]

def ofMembers (ms : List Member) : KVPair := ⟨field ms keyName,field ms valueName⟩

/-- `json.Unmarshal`, which takes nothing behind the object. -/
def unmarshal (b : Bytes) : Option KVPair :=
  (readObject b).bind fun r => if r.2 = [] then some (ofMembers r.1) else none

lemma ofMembers_pair (p : KVPair) : ofMembers [(keyName,p.key),(valueName,p.value)] = p := by
  have hne : valueName ≠ keyName := by decide
  simp [ofMembers,field,hne]

lemma length_value_lt_marshal (p : KVPair) : p.value.length<p.marshal.length := by
  have hquote := length_lt_quote p.value
  simp only [marshal,object,member,flatMap_cons,flatMap_nil,length_cons,length_append,length_nil]
  omega

end KVPair

/-- `ShouldBindJSON` of the framework, on what `json.Marshal` writes for a pair: both fields are required. -/
class JsonBinding where
  bindPut : Bytes → Option KVPair
  bindPut_marshal : ∀ p : KVPair, bindPut p.marshal = if p.key = [] ∨ p.value = [] then none else some p.toValid

export JsonBinding (bindPut bindPut_marshal)

def errorBody (text : Bytes) : Bytes := object [(ascii "error".toList,text)]

namespace Service

/-- The status of the answer and what is stored then; the store may fail with a text. -/
def put [JsonBinding] (store : Directory Bytes Bytes) (body : Bytes) (fails : Option Bytes) :
    ℕ × Directory Bytes Bytes :=
  match bindPut body with
  | none => (400,store)
  | some req => if fails.isSome then (502,store) else (200,store.set req.key req.value)

/-- The status and the body of the answer. -/
def get (store : Directory Bytes Bytes) (key : Bytes) (fails : Option Bytes) : ℕ × Bytes :=
  if key = [] then (400,errorBody (ascii "missing key".toList))
  else
    match fails with
    | some text => (502,errorBody text)
    | none =>
      match store.get key with
      | none => (404,errorBody (ascii "key not found".toList))
      | some v => (200,(KVPair.mk key v).marshal)

/-- What `%q` writes: a text on one line. -/
abbrev Quoted := { text : Bytes // (10 : UInt8) ∉ text }

def dataLine (p : KVPair) : Bytes := ascii "data: ".toList ++ p.marshal

def eventLines (name : List Char) (text : Bytes) : Bytes :=
  ascii "event: ".toList ++ ascii name ++ 10::(ascii "data: ".toList ++ text)

def endPayload (count : ℕ) : Bytes := 123::34::(ascii "count".toList ++ 34::58::(decimal count ++ [125]))

/-- The blocks of the stream: the pairs of the range and the end, or the error of the store. -/
def scanBlocks (items : List KVPair) : Option Quoted → List Bytes
  | some text => [eventLines "error".toList text]
  | none => items.map dataLine ++ [eventLines "end".toList (endPayload items.length)]

/-- The stream of `Scan`. An empty line ends a block. -/
def scan (items : List KVPair) (fails : Option Quoted) : Bytes := (scanBlocks items fails).flatMap (· ++ [10,10])

end Service

lemma toValid_eq_nil_iff {b : Bytes} : Utf8.toValid b = [] ↔ b = [] := by
  constructor
  · intro h
    have hle := Utf8.length_le_toValid b
    rw [h] at hle
    exact eq_nil_of_length_eq_zero (Nat.le_zero.mp hle)
  · rintro rfl
    rfl

/-- The first value of the body is bound. -/
def bindFirst (body : Bytes) : Option KVPair :=
  (readObject body).bind fun r =>
    if (KVPair.ofMembers r.1).key = [] ∨ (KVPair.ofMembers r.1).value = [] then none else some (KVPair.ofMembers r.1)

instance : JsonBinding where
  bindPut := bindFirst
  bindPut_marshal p := by
    have hnames : Utf8.toValid keyName = keyName ∧ Utf8.toValid valueName = valueName := by decide +kernel
    have hread := readObject_object_append [(keyName,p.key),(valueName,p.value)] []
    have hvalid : [(keyName,p.key),(valueName,p.value)].map Member.toValid =
        [(keyName,p.toValid.key),(valueName,p.toValid.value)] := by
      simp [Member.toValid,hnames,KVPair.toValid]
    rw [append_nil,hvalid] at hread
    rw [bindFirst,KVPair.marshal,hread,Option.bind_some,KVPair.ofMembers_pair]
    simp only [KVPair.toValid,toValid_eq_nil_iff]

end TitanKV.Services.Data
