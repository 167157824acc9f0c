import TitanKV.Library.Directory
import TitanKV.Library.Json
import TitanKV.Minikv.Paths

/-! The state machine that the Raft log is applied to. Commands and snapshots travel as JSON, while keys and values
are strings of any bytes. Of the JSON package only what it promises is used; a package that keeps these promises
follows at the end. -/
namespace TitanKV.Distributed
open Minikv Utf8 List Option Directory

structure Command where
  op : Bytes
  key : Bytes
  value : Bytes
  deriving DecidableEq,Repr

def opPut : Bytes := ascii ['p','u','t']

def opDelete : Bytes := ascii ['d','e','l']

def Command.toValid (c : Command) : Command := ⟨Utf8.toValid c.op,Utf8.toValid c.key,Utf8.toValid c.value⟩

def Command.Valid (c : Command) : Prop := Utf8.Valid c.op ∧ Utf8.Valid c.key ∧ Utf8.Valid c.value

/-- A map of strings, each key once. -/
structure Data where
  entries : Directory Bytes Bytes
  distinct : entries.names.Nodup

namespace Data

def empty : Data := ⟨[],nodup_nil⟩

def get (d : Data) (key : Bytes) : Option Bytes := d.entries.get key

def set (d : Data) (key value : Bytes) : Data := ⟨d.entries.set key value,nodup_names_set d.distinct key value⟩

def erase (d : Data) (key : Bytes) : Data := ⟨d.entries.unlink key,nodup_names_filter d.distinct _⟩

def Valid (d : Data) : Prop := ∀ e ∈ d.entries, Utf8.Valid e.1 ∧ Utf8.Valid e.2

end Data

/-- The JSON package. Bytes that are no UTF-8 are replaced when a string is written, and no string that is read has
any. A map of valid strings is read back; the text `null` makes no map at all. -/
structure EncodingJson where
  marshalCommand : Command → Bytes
  unmarshalCommand : Bytes → Option Command
  marshalMap : Data → Bytes
  unmarshalMap : Bytes → Option (Option Data)
  unmarshal_marshal : ∀ c, unmarshalCommand (marshalCommand c) = some c.toValid
  valid_unmarshal : ∀ b c, unmarshalCommand b = some c → c.Valid
  unmarshal_marshalMap : ∀ d : Data, d.Valid → ∃ d', unmarshalMap (marshalMap d) = some (some d') ∧
    ∀ key, d'.get key = d.get key

section Fsm
variable (json : EncodingJson)

def encodeCommand (c : Command) : Bytes := json.marshalCommand c

def decodeCommand (b : Bytes) : Option Command := json.unmarshalCommand b

/-- What the forwarder was asked to mirror. -/
inductive Mirrored
  | put (key value : Bytes)
  | delete (key : Bytes)
  deriving DecidableEq,Repr

structure KVFSM where
  data : Data
  forwarder : Option (List Mirrored)

inductive ApplyError
  | decode
  | unknownOp (op : Bytes)
  deriving DecidableEq,Repr

namespace KVFSM

def new (forwarder : Option (List Mirrored)) : KVFSM := ⟨Data.empty,forwarder⟩

def applyLocal (f : KVFSM) (cmd : Command) : Option ApplyError × KVFSM :=
  if cmd.op = opPut then (none,⟨f.data.set cmd.key cmd.value,f.forwarder.map (· ++ [.put cmd.key cmd.value])⟩)
  else if cmd.op = opDelete then (none,⟨f.data.erase cmd.key,f.forwarder.map (· ++ [.delete cmd.key])⟩)
  else (some (.unknownOp cmd.op),f)

def apply (f : KVFSM) (entry : Bytes) : Option ApplyError × KVFSM :=
  match decodeCommand json entry with
  | none => (some .decode,f)
  | some cmd => f.applyLocal cmd

def get (f : KVFSM) (key : Bytes) : Option Bytes := f.data.get key

def snapshot (f : KVFSM) : Data := f.data

/-- A file that is no map of strings leaves the state as it is; `none` stands for the error. -/
def restore (f : KVFSM) (file : Bytes) : Option KVFSM :=
  (json.unmarshalMap file).map fun d => { f with data := d.getD Data.empty }

def replay (f : KVFSM) (log : List Bytes) : KVFSM := log.foldl (fun f entry => (f.apply json entry).2) f

end KVFSM

def persist (d : Data) : Bytes := json.marshalMap d

structure Node where
  leader : Bool
  fsm : KVFSM

inductive NodeError
  | notLeader
  | apply (e : ApplyError)
  deriving DecidableEq,Repr

namespace Node

def apply (n : Node) (cmd : Command) : Option NodeError × Node :=
  if n.leader then
    let r := n.fsm.apply json (encodeCommand json cmd)
    (r.1.map .apply,{ n with fsm := r.2 })
  else (some .notLeader,n)

def put (n : Node) (key value : Bytes) : Option NodeError × Node := n.apply json ⟨opPut,key,value⟩

def delete (n : Node) (key : Bytes) : Option NodeError × Node := n.apply json ⟨opDelete,key,[]⟩

def get (n : Node) (key : Bytes) : Option Bytes := n.fsm.get key

end Node

/-- A command on a key. -/
inductive Write
  | put (key value : Bytes)
  | delete (key : Bytes)
  deriving DecidableEq,Repr

def Write.key : Write → Bytes
  | .put key _ => key
  | .delete key => key

def Node.write (n : Node) : Write → Node
  | .put key value => (n.put json key value).2
  | .delete key => (n.delete json key).2

def Affects (w : Write) (entry : Bytes) : Prop :=
  ∃ n : Node, n.leader = true ∧ (n.write json w).get entry ≠ n.get entry

/-- The value that is put under a key is read until the next command on that key, and no command on another key
affects the entry. -/
structure Faithful (key value : Bytes) : Prop where
  read : ∀ (n : Node) (ws : List Write), n.leader = true → (∀ w ∈ ws, w.key ≠ key) →
    (ws.foldl (Node.write json) (n.write json (.put key value))).get key = some value
  alone : ∀ w w' : Write, w.key = key → w'.key ≠ key → ∀ entry, ¬(Affects json w entry ∧ Affects json w' entry)

end Fsm

namespace Data
variable {d : Data} {key value key' : Bytes}

lemma get_set : (d.set key value).get key' = if key' = key then some value else d.get key' := Directory.get_set ..

lemma get_erase : (d.erase key).get key' = if key' = key then none else d.get key' := get_unlink ..

lemma valid_empty : empty.Valid := by simp [Valid,empty]

lemma valid_set (hkey : Utf8.Valid key) (hvalue : Utf8.Valid value) (h : d.Valid) : (d.set key value).Valid := by
  intro e he
  obtain rfl | he := mem_of_mem_set he
  · exact ⟨hkey,hvalue⟩
  · exact h e he

lemma valid_erase (h : d.Valid) : (d.erase key).Valid := fun e he => h e (mem_of_mem_filter he)

end Data

/-- What a command leaves in the entry that it affects. -/
def Write.stored : Write → Option Bytes
  | .put _ value => some (toValid value)
  | .delete _ => none

section Writes
variable {json : EncodingJson} {n : Node} {w : Write} {key value entry : Bytes}

lemma toValid_op : toValid opPut = opPut ∧ toValid opDelete = opDelete ∧ opDelete ≠ opPut := by decide +kernel

lemma leader_write : (n.write json w).leader = n.leader := by
  cases w <;> simp only [Node.write,Node.put,Node.delete,Node.apply] <;> split <;> rfl

lemma get_write (h : n.leader = true) (w : Write) (entry : Bytes) :
    (n.write json w).get entry = if entry = toValid w.key then w.stored else n.get entry := by
  obtain ⟨hput,hdelete,hne⟩ := toValid_op
  cases w with
  | put key value =>
    simp only [Node.write,Node.put,Node.apply,if_pos h,KVFSM.apply,decodeCommand,encodeCommand,
      json.unmarshal_marshal,KVFSM.applyLocal,Command.toValid,hput,Node.get,KVFSM.get,Data.get_set,Write.key,
      Write.stored,if_true]
    rfl
  | delete key =>
    simp only [Node.write,Node.delete,Node.apply,if_pos h,KVFSM.apply,decodeCommand,encodeCommand,
      json.unmarshal_marshal,KVFSM.applyLocal,Command.toValid,hdelete,hne,Node.get,KVFSM.get,Data.get_erase,
      Write.key,Write.stored,if_true,if_false]
    rfl

lemma affects_iff : Affects json w entry ↔ entry = toValid w.key := by
  constructor
  · rintro ⟨n,hleader,hne⟩
    rw [get_write hleader] at hne
    by_contra h
    exact hne (if_neg h)
  · rintro rfl
    -- a state whose entry differs from what the command stores
    obtain ⟨d,hd⟩ : ∃ d : Data, d.get (toValid w.key) ≠ w.stored := by
      cases w with
      | put key value => exact ⟨Data.empty,by simp [Data.get,Data.empty,Directory.get,Write.stored]⟩
      | delete key => exact ⟨Data.empty.set (toValid key) [],by simp [Data.get_set,Write.key,Write.stored]⟩
    refine ⟨⟨true,⟨d,none⟩⟩,rfl,?_⟩
    rw [get_write rfl,if_pos rfl]
    exact Ne.symm hd

lemma get_foldl_write {ws : List Write} (hother : ∀ w ∈ ws, toValid w.key ≠ key) (hleader : n.leader = true) :
    (ws.foldl (Node.write json) n).get key = n.get key := by
  induction ws generalizing n with
  | nil => rfl
  | cons w ws ih =>
    have hne : key ≠ toValid w.key := (hother w mem_cons_self).symm
    rw [foldl_cons,ih (fun w hw => hother w (mem_cons_of_mem _ hw)) (leader_write.trans hleader),get_write hleader,
      if_neg hne]

/-- A key and a value are stored as they are exactly if both are UTF-8 and the key has no replacement character. -/
theorem faithful_iff (json : EncodingJson) (key value : Bytes) :
    Faithful json key value ↔ Valid key ∧ Valid value ∧ some replacement ∉ runes key := by
  constructor
  · intro h
    have hread := h.read ⟨true,KVFSM.new none⟩ [] rfl (by simp)
    rw [foldl_nil,get_write rfl] at hread
    split_ifs at hread with hkey
    · have hvalid : Valid key := toValid_eq_self_iff.mp hkey.symm
      refine ⟨hvalid,toValid_eq_self_iff.mp (Option.some.inj hread),fun hmem => ?_⟩
      obtain ⟨key',hne,heq⟩ := (exists_toValid_eq_iff hvalid).mpr hmem
      exact h.alone (.put key value) (.put key' value) rfl hne key ⟨affects_iff.mpr hkey,affects_iff.mpr heq.symm⟩
    · simp [Node.get,KVFSM.get,KVFSM.new,Data.get,Data.empty,Directory.get] at hread
  · rintro ⟨hkey,hvalue,hreplacement⟩
    have hother {key' : Bytes} (hne : key' ≠ key) : toValid key' ≠ key := fun heq =>
      hreplacement ((exists_toValid_eq_iff hkey).mp ⟨key',hne,heq⟩)
    refine ⟨fun n ws hleader hws => ?_,?_⟩
    · rw [get_foldl_write (fun w hw => hother (hws w hw)) (leader_write.trans hleader),get_write hleader]
      simp [Write.key,Write.stored,toValid_of_valid hkey,toValid_of_valid hvalue]
    · rintro w w' rfl hw' entry ⟨haffects,haffects'⟩
      rw [affects_iff] at haffects haffects'
      rw [haffects,toValid_of_valid hkey] at haffects'
      exact hother hw' haffects'.symm

end Writes

namespace KVFSM
variable {json : EncodingJson} {f g : KVFSM} {entry : Bytes}

lemma apply_of_unknown (h : (decodeCommand json entry).all (fun c => c.op ≠ opPut ∧ c.op ≠ opDelete) = true) :
    (f.apply json entry).2 = f := by
  unfold apply
  cases hcmd : decodeCommand json entry with
  | none => rfl
  | some c =>
    simp only [hcmd,all_some,decide_eq_true_eq] at h
    simp [applyLocal,h.1,h.2]

lemma valid_apply (h : f.data.Valid) : (f.apply json entry).2.data.Valid := by
  unfold apply
  cases hcmd : decodeCommand json entry with
  | none => exact h
  | some c =>
    obtain ⟨-,hkey,hvalue⟩ := json.valid_unmarshal entry c hcmd
    simp only [applyLocal]
    split_ifs
    · exact Data.valid_set hkey hvalue h
    · exact Data.valid_erase h
    · exact h

lemma get_apply (h : ∀ key, f.get key = g.get key) (key : Bytes) :
    (f.apply json entry).2.get key = (g.apply json entry).2.get key := by
  unfold apply
  cases decodeCommand json entry with
  | none => exact h key
  | some c =>
    have hdata : f.data.get key = g.data.get key := h key
    simp only [applyLocal]
    split_ifs
    · simp only [get,Data.get_set,hdata]
    · simp only [get,Data.get_erase,hdata]
    · exact h key

lemma valid_replay {log : List Bytes} (h : f.data.Valid) : (f.replay json log).data.Valid := by
  induction log generalizing f with
  | nil => exact h
  | cons entry log ih => exact ih (valid_apply h)

lemma get_replay {log : List Bytes} (h : ∀ key, f.get key = g.get key) (key : Bytes) :
    (f.replay json log).get key = (g.replay json log).get key := by
  induction log generalizing f g with
  | nil => exact h key
  | cons entry log ih => exact ih (get_apply h)

/-- A snapshot and the rest of the log give what the whole log gives, whatever the state was that the snapshot is
restored into; an entry that cannot be decoded or names no known operation changes nothing. -/
theorem replay_of_restore (json : EncodingJson) (prior : KVFSM) (forwarder : Option (List Mirrored))
    (before after : List Bytes) :
    (∃ f, prior.restore json (persist json ((new forwarder).replay json before).snapshot) = some f ∧
        ∀ key, (f.replay json after).get key = ((new forwarder).replay json (before++after)).get key) ∧
      ∀ (f : KVFSM) (entry : Bytes),
        (decodeCommand json entry).all (fun c => c.op ≠ opPut ∧ c.op ≠ opDelete) = true →
        (f.apply json entry).2 = f := by
  refine ⟨?_,fun f entry => apply_of_unknown⟩
  have hvalid : ((new forwarder).replay json before).snapshot.Valid := valid_replay Data.valid_empty
  obtain ⟨d,hd,hget⟩ := json.unmarshal_marshalMap _ hvalid
  refine ⟨⟨d,prior.forwarder⟩,by simp [restore,persist,hd],fun key => ?_⟩
  have hsplit : (new forwarder).replay json (before++after) =
      ((new forwarder).replay json before).replay json after :=
    foldl_append
  rw [hsplit]
  exact get_replay (f := ⟨d,prior.forwarder⟩) hget key

end KVFSM
namespace JsonText
open Json

def opName : Bytes := ascii ['o','p']

def keyName : Bytes := ascii ['k','e','y']

def valueName : Bytes := ascii ['v','a','l','u','e']

/-- The last member of the name counts, and a missing one is empty. -/
def field (ms : List Member) (key : Bytes) : Bytes := ((ms.reverse.find? fun m => m.1 = key).map Prod.snd).getD []

def members (c : Command) : List Member :=
  [(opName,c.op),(keyName,c.key)] ++ if c.value = [] then [] else [(valueName,c.value)]

def marshalCommand (c : Command) : Bytes := object (members c)

def unmarshalCommand (b : Bytes) : Option Command :=
  (readObject b).bind fun r =>
    if r.2 = [] then some ⟨field r.1 opName,field r.1 keyName,field r.1 valueName⟩ else none

def sorted (d : Data) : List Member := d.entries.mergeSort fun a b => a.1≤b.1

def marshalMap (d : Data) : Bytes := object (sorted d)

def ofMembers (ms : List Member) (d : Data) : Data := ms.foldl (fun d m => d.set m.1 m.2) d

def unmarshalMap (b : Bytes) : Option (Option Data) :=
  if b = ascii ['n','u','l','l'] then some none
  else (readObject b).bind fun r => if r.2 = [] then some (some (ofMembers r.1 Data.empty)) else none

lemma unmarshalCommand_marshalCommand (c : Command) : unmarshalCommand (marshalCommand c) = some c.toValid := by
  have hnames : toValid opName = opName ∧ toValid keyName = keyName ∧
    toValid valueName = valueName := by decide +kernel
  have hdistinct : opName ≠ keyName ∧ opName ≠ valueName ∧ keyName ≠ valueName := by decide
  have hread := readObject_object_append (members c) []
  rw [append_nil] at hread
  rw [unmarshalCommand,marshalCommand,hread,bind_some,if_pos rfl]
  by_cases hvalue : c.value = []
  · have hempty : toValid ([] : Bytes) = [] := rfl
    simp [members,hvalue,hempty,Member.toValid,hnames,hdistinct,hdistinct.1.symm,field,Command.toValid]
  · simp [members,hvalue,Member.toValid,hnames,hdistinct.1.symm,hdistinct.2.1.symm,hdistinct.2.2.symm,field,
      Command.toValid]

lemma valid_field {ms : List Member} (h : ∀ m ∈ ms, Valid m.1 ∧ Valid m.2) (key : Bytes) : Valid (field ms key) := by
  unfold field
  cases hfind : ms.reverse.find? fun m => decide (m.1 = key) with
  | none => decide
  | some m => exact (h m (by simpa using mem_of_find?_eq_some hfind)).2

lemma valid_of_unmarshalCommand (b : Bytes) (c : Command) (h : unmarshalCommand b = some c) : c.Valid := by
  obtain ⟨⟨ms,rest⟩,hread,h⟩ := bind_eq_some_iff.mp h
  simp only [ite_none_right_eq_some,Option.some.injEq] at h
  obtain ⟨-,rfl⟩ := h
  have hvalid := valid_of_readObject hread
  exact ⟨valid_field hvalid _,valid_field hvalid _,valid_field hvalid _⟩

lemma entries_ofMembers {ms : List Member} {d : Data} (h : (d.entries.names ++ ms.map Prod.fst).Nodup) :
    (ofMembers ms d).entries = d.entries++ms := by
  induction ms generalizing d with
  | nil => simp [ofMembers]
  | cons m ms ih =>
    have hnew : m.1 ∉ d.entries.names := fun hmem => disjoint_of_nodup_append h hmem (by simp)
    have hset : (d.set m.1 m.2).entries = d.entries++[m] := by simp [Data.set,Directory.set,hnew]
    have hnames : ((d.set m.1 m.2).entries.names ++ ms.map Prod.fst).Nodup := by
      rw [hset]
      simpa [names] using h
    have hstep : ofMembers (m::ms) d = ofMembers ms (d.set m.1 m.2) := rfl
    rw [hstep,ih hnames,hset]
    simp

lemma unmarshalMap_marshalMap (d : Data) (h : d.Valid) :
    ∃ d', unmarshalMap (marshalMap d) = some (some d') ∧ ∀ key, d'.get key = d.get key := by
  have hperm : (sorted d).Perm d.entries := mergeSort_perm ..
  have hvalid : (sorted d).map Member.toValid = sorted d := by
    conv_rhs => rw [← map_id (sorted d)]
    apply map_congr_left
    intro m hm
    obtain ⟨hkey,hvalue⟩ := h m (hperm.mem_iff.mp hm)
    rw [Member.toValid,toValid_of_valid hkey,toValid_of_valid hvalue]
    rfl
  have hread := readObject_object_append (sorted d) []
  rw [append_nil,hvalid] at hread
  have hnull : marshalMap d ≠ ascii ['n','u','l','l'] := by
    unfold marshalMap object
    split <;> simp [ascii]
  have hnames : ((sorted d).map Prod.fst).Nodup := (hperm.map Prod.fst).nodup_iff.mpr d.distinct
  refine ⟨ofMembers (sorted d) Data.empty,?_,fun key => ?_⟩
  · rw [unmarshalMap,if_neg hnull,marshalMap,hread,bind_some,if_pos rfl]
  · rw [Data.get,entries_ofMembers (d := Data.empty) hnames]
    exact get_of_perm hnames hperm key

end JsonText

/-- The texts keep the promises. -/
def jsonText : EncodingJson where
  marshalCommand := JsonText.marshalCommand
  unmarshalCommand := JsonText.unmarshalCommand
  marshalMap := JsonText.marshalMap
  unmarshalMap := JsonText.unmarshalMap
  unmarshal_marshal := JsonText.unmarshalCommand_marshalCommand
  valid_unmarshal := JsonText.valid_of_unmarshalCommand
  unmarshal_marshalMap := JsonText.unmarshalMap_marshalMap

/-- A byte that is no UTF-8 comes back as the replacement character, and two such keys share an entry, under which
neither is found. -/
theorem put_replaces :
    ((Node.mk true (KVFSM.new none)).write jsonText (.put [107] [0xff])).get [107] = some [0xef,0xbf,0xbd] ∧
      ([.put [0xff] [97],.put [0xfe] [98]].foldl (Node.write jsonText) (Node.mk true (KVFSM.new none))).get
        [0xef,0xbf,0xbd] = some [98] ∧
      ([.put [0xff] [97],.put [0xfe] [98]].foldl (Node.write jsonText) (Node.mk true (KVFSM.new none))).get [0xff] =
        none := by
  decide +kernel

end TitanKV.Distributed
