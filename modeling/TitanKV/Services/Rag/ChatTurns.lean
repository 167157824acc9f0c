import TitanKV.Library.LastPuts
import TitanKV.Library.Utf8
import TitanKV.Services.Rag.Chat

/-! The histories that `Ask` writes. The numbers of the two messages of a call come from the clock, in seconds, and
the store may refuse a message without the caller being told. -/
namespace TitanKV.Services.Rag
open Minikv Utf8 List Directory

/-- What a call of `Ask` meets besides its texts: the session, the readings of the clock for the number and for the
two messages, and whether the store takes them. -/
structure Turn where
  uid : Bytes
  sid : Bytes
  base : ℤ
  userAt : ℤ
  assistantAt : ℤ
  userKept : Bool := true
  assistantKept : Bool := true
  deriving DecidableEq,Repr

inductive AskError
  | retrieve
  | stream
  deriving DecidableEq,Repr

/-- A call with what the retriever finds, by document, or that it fails, and with what the model streams. -/
structure AskCall where
  turn : Turn
  query : Bytes
  retrieved : Option (List Bytes)
  tokens : List Bytes
  streamed : Bool := true
  deriving DecidableEq,Repr

/-- What an `int64` makes of a number. -/
def int64 (n : ℤ) : ℤ := n.bmod (2^64)

def Turn.userSeq (t : Turn) : ℤ := int64 (t.base*2)

def Turn.assistantSeq (t : Turn) : ℤ := int64 (t.base*2+1)

namespace AskCall
variable (c : AskCall)

def answer : Bytes := c.tokens.flatten

/-- Every document once, in the order of the hits. -/
def citations : List Bytes := (c.retrieved.getD []).eraseDups

def result : Bytes × List Bytes × Option AskError :=
  if c.retrieved = none then ([],[],some .retrieve)
  else if c.streamed = false then (c.answer,[],some .stream)
  else (c.answer,c.citations,none)

/-- The message of the user, with its text as JSON keeps it. -/
def user : ChatAppend :=
  ⟨c.turn.uid,c.turn.sid,ascii "user".toList,toValid c.query,[],c.turn.userSeq,c.turn.userAt⟩

def assistant : ChatAppend :=
  ⟨c.turn.uid,c.turn.sid,ascii "assistant".toList,toValid c.answer,c.citations.map toValid,c.turn.assistantSeq,
    c.turn.assistantAt⟩

def attempts : List (ChatAppend × Bool) := [(c.user,c.turn.userKept),(c.assistant,c.turn.assistantKept)]

end AskCall

def ChatAppend.message (a : ChatAppend) : ChatMessage := ⟨a.role,a.content,a.citations,a.now⟩

namespace Chats

def attempt (chats : Chats) (a : ChatAppend × Bool) : Chats := if a.2 then chats.appendChat a.1 else chats

def ask (chats : Chats) (c : AskCall) : Chats :=
  if c.result.2.2 = none ∧ c.turn.uid ≠ [] ∧ c.turn.sid ≠ [] then c.attempts.foldl attempt chats else chats

def asked (calls : List AskCall) : Chats := calls.foldl ask []

end Chats

def history (calls : List AskCall) (u s : Bytes) : List ChatMessage :=
  (calls.filter fun c => c.turn.uid = u ∧ c.turn.sid = s).flatMap fun c => [c.user.message,c.assistant.message]

/-- Successful calls with these turns leave the history of the session as it was said, whatever was said. -/
def KeepsHistory (turns : List Turn) (u s : Bytes) : Prop :=
  ∀ calls : List AskCall, calls.map AskCall.turn = turns → (∀ c ∈ calls, c.result.2.2 = none) →
    (Chats.asked calls).listChat u s = history calls u s

/-- The place of a message: its session and number, and whether it is stored. -/
structure Slot where
  uid : Bytes
  sid : Bytes
  seq : ℤ
  kept : Bool
  deriving DecidableEq,Repr

def Slot.Of (u s : Bytes) (a : Slot) : Prop := a.uid = u ∧ a.sid = s

instance (u s : Bytes) (a : Slot) : Decidable (a.Of u s) := inferInstanceAs (Decidable (_ ∧ _))

def Slot.key (a : Slot) : Bytes := chatKey a.uid a.sid a.seq

def Turn.slots (t : Turn) : List Slot :=
  [⟨t.uid,t.sid,t.userSeq,t.userKept⟩,⟨t.uid,t.sid,t.assistantSeq,t.assistantKept⟩]

/-- The messages of the session are stored, their printed numbers ascend as texts, and what other sessions store
where its scan looks is replaced by it later on. -/
structure Orderly (u s : Bytes) (slots : List Slot) : Prop where
  kept : ∀ a ∈ slots, a.Of u s → a.kept = true
  ascending : (slots.filter fun a => a.Of u s).Pairwise fun a b => compare (padded a.seq) (padded b.seq) = .lt
  replaced : ∀ before a after, slots = before ++ a::after → a.kept = true → ¬a.Of u s → ¬Apart u s a.uid a.sid →
    ∃ b ∈ after, b.Of u s ∧ b.key = a.key

lemma compare_append_left (x a b : Bytes) : compare (x++a) (x++b) = compare a b := by
  induction x with
  | nil => rfl
  | cons c x ih =>
    rw [cons_append,cons_append,compare_cons,Std.ReflOrd.compare_self,ih]
    rfl

lemma compare_chatKey (u s : Bytes) (m n : ℤ) :
    compare (chatKey u s m) (chatKey u s n) = compare (padded m) (padded n) := by
  have hkey : ∀ n, chatKey u s n = chatPrefix u s ++ padded n := fun n => by simp [chatKey,chatPrefix]
  rw [hkey,hkey,compare_append_left]

section Attempts
variable {u s : Bytes} {as : List (ChatAppend × Bool)}

def slotOf (a : ChatAppend × Bool) : Slot := ⟨a.1.uid,a.1.sid,a.1.seq,a.2⟩

def filed (a : ChatAppend × Bool) : Bytes × ChatMessage := ((slotOf a).key,a.1.message)

def stored (as : List (ChatAppend × Bool)) : List (Bytes × ChatMessage) := (as.filter Prod.snd).map filed

lemma foldl_attempt (chats : Chats) : as.foldl Chats.attempt chats = puts chats (stored as) := by
  induction as generalizing chats with
  | nil => rfl
  | cons a as ih =>
    rw [foldl_cons,ih,Chats.attempt]
    by_cases hkept : a.2 = true
    · rw [if_pos hkept,stored,stored,filter_cons_of_pos hkept]
      rfl
    · rw [if_neg hkept,stored,stored,filter_cons_of_neg hkept]

lemma listChat_foldl_attempt (u s : Bytes) : (as.foldl Chats.attempt []).listChat u s =
    (found (inRange (chatPrefix u s)) (stored as)).map Prod.snd := by
  rw [foldl_attempt]
  rfl

lemma inRange_of_own {a : ChatAppend × Bool} (h : (slotOf a).Of u s) :
    inRange (chatPrefix u s) (filed a).1 = true := by
  refine inRange_chatKey_iff.mpr ?_
  rw [show (slotOf a).uid = u from h.1,show (slotOf a).sid = s from h.2]
  exact not_apart_self u s

lemma Orderly.tail {a : Slot} {slots : List Slot} (h : Orderly u s (a::slots)) : Orderly u s slots := by
  refine ⟨fun b hb => h.kept b (mem_cons_of_mem a hb),?_,?_⟩
  · exact h.ascending.sublist ((sublist_cons_self a slots).filter _)
  · intro before b after hsplit
    exact h.replaced (a::before) b after (by rw [hsplit]; rfl)

lemma Orderly.key_ne {a b : Slot} {slots : List Slot} (h : Orderly u s (a::slots)) (ha : a.Of u s) (hb : b ∈ slots)
    (hkept : b.kept = true) : b.key ≠ a.key := by
  have hown : ∀ b ∈ slots, b.Of u s → b.key ≠ a.key := by
    intro b hb hof heq
    have hasc := h.ascending
    rw [filter_cons_of_pos (by simpa using ha)] at hasc
    have hlt := (pairwise_cons.mp hasc).1 b (mem_filter.mpr ⟨hb,by simpa using hof⟩)
    rw [← compare_chatKey u s] at hlt
    rw [Slot.key,Slot.key,hof.1,hof.2,ha.1,ha.2] at heq
    exact ne_of_compare_lt hlt heq.symm
  intro heq
  by_cases hof : b.Of u s
  · exact hown b hb hof heq
  · have hmixed : ¬Apart u s b.uid b.sid := by
      refine inRange_chatKey_iff.mp (?_ : inRange (chatPrefix u s) b.key = true)
      rw [heq,Slot.key,ha.1,ha.2]
      exact inRange_chatKey_iff.mpr (not_apart_self u s)
    obtain ⟨before,after,hsplit⟩ := append_of_mem hb
    obtain ⟨c,hc,hcof,hckey⟩ := h.tail.replaced before b after hsplit hkept hof hmixed
    exact hown c (by rw [hsplit]; simp [hc]) hcof (hckey.trans heq)

lemma mem_names_stored {k : Bytes} : k ∈ (stored as).map Prod.fst ↔ ∃ b ∈ as, b.2 = true ∧ (slotOf b).key = k := by
  simp only [stored,map_map,mem_map,mem_filter,Function.comp_apply,and_assoc]
  rfl

lemma filter_lasts_stored (h : Orderly u s (as.map slotOf)) :
    (lasts (stored as)).filter (fun e => inRange (chatPrefix u s) e.1) =
      (as.filter fun a => (slotOf a).Of u s).map filed := by
  induction as with
  | nil => rfl
  | cons a as ih =>
    by_cases hkept : a.2 = true
    · have hstored : stored (a::as) = filed a::stored as := by rw [stored,filter_cons_of_pos hkept]; rfl
      rw [hstored,lasts]
      by_cases hof : (slotOf a).Of u s
      · -- nothing comes after it in its place
        have hlast : (filed a).1 ∉ (stored as).map Prod.fst := by
          rw [mem_names_stored]
          rintro ⟨b,hb,hbkept,hkey⟩
          exact h.key_ne hof (mem_map_of_mem hb) hbkept hkey
        rw [if_neg hlast,filter_cons_of_pos (p := fun e : Bytes × ChatMessage => inRange (chatPrefix u s) e.1)
          (inRange_of_own hof),
          filter_cons_of_pos (by simpa using hof),ih h.tail]
        rfl
      · rw [filter_cons_of_neg (by simpa using hof),← ih h.tail]
        split
        · rfl
        · rename_i hlast
          refine filter_cons_of_neg ?_
          intro hin
          obtain ⟨slot,hslot,hbof,hkey⟩ :=
            h.replaced [] (slotOf a) (as.map slotOf) rfl hkept hof (inRange_chatKey_iff.mp hin)
          obtain ⟨b,hb,rfl⟩ := mem_map.mp hslot
          refine hlast (mem_names_stored.mpr ⟨b,hb,?_,hkey⟩)
          exact h.tail.kept _ (mem_map_of_mem hb) hbof
    · have hof : ¬(slotOf a).Of u s := fun hof => hkept (h.kept _ mem_cons_self hof)
      rw [stored,filter_cons_of_neg hkept,filter_cons_of_neg (by simpa using hof),← ih h.tail]
      rfl

lemma ascending_filed_iff : Ascending ((as.filter fun a => (slotOf a).Of u s).map filed) ↔
    ((as.map slotOf).filter fun a => a.Of u s).Pairwise fun a b => compare (padded a.seq) (padded b.seq) = .lt := by
  rw [Directory.Ascending,pairwise_map,filter_map,pairwise_map]
  refine List.Pairwise.iff_of_mem ?_
  intro a b ha hb
  have ha' : (slotOf a).Of u s := by simpa using (mem_filter.mp ha).2
  have hb' : (slotOf b).Of u s := by simpa using (mem_filter.mp hb).2
  rw [filed,filed,Slot.key,Slot.key,ha'.1,ha'.2,hb'.1,hb'.2,compare_chatKey]

theorem listChat_of_orderly (h : Orderly u s (as.map slotOf)) :
    (as.foldl Chats.attempt []).listChat u s = (as.filter fun a => (slotOf a).Of u s).map fun a => a.1.message := by
  have hfound : found (inRange (chatPrefix u s)) (stored as) = (as.filter fun a => (slotOf a).Of u s).map filed := by
    refine (ascending_found _ _).eq_of_mem_iff (ascending_filed_iff.mpr h.ascending) ?_
    intro e
    rw [mem_found_iff,← filter_lasts_stored h,mem_filter]
  rw [listChat_foldl_attempt,hfound,map_map]
  rfl

lemma eq_of_map_eq {α β : Type*} {f : α → β} {xs ys : List α} (hinj : ∀ x ∈ xs, ∀ y ∈ ys, f x = f y → x = y)
    (h : xs.map f = ys.map f) : xs = ys := by
  induction xs generalizing ys with
  | nil => exact (map_eq_nil_iff.mp h.symm).symm
  | cons x xs ih =>
    cases ys with
    | nil => cases h
    | cons y ys =>
      obtain ⟨hxy,hrest⟩ := List.cons.inj h
      rw [hinj x mem_cons_self y mem_cons_self hxy,
        ih (fun x hx y hy => hinj x (mem_cons_of_mem _ hx) y (mem_cons_of_mem _ hy)) hrest]

/-- If all messages differ, the right history shows that the run was orderly. -/
theorem orderly_of_listChat (hdistinct : (as.map fun a => a.1.message).Nodup)
    (h : (as.foldl Chats.attempt []).listChat u s = (as.filter fun a => (slotOf a).Of u s).map fun a =>
      a.1.message) :
    Orderly u s (as.map slotOf) := by
  have hinj : ∀ a ∈ as, ∀ b ∈ as, (filed a).2 = (filed b).2 → a = b :=
    fun a ha b hb heq => inj_on_of_nodup_map hdistinct ha hb heq
  have hsub : ∀ e ∈ stored as, ∃ a ∈ as, a.2 = true ∧ filed a = e := by
    intro e he
    obtain ⟨a,ha,rfl⟩ := mem_map.mp he
    exact ⟨a,(mem_filter.mp ha).1,(mem_filter.mp ha).2,rfl⟩
  -- what the scan finds are the messages of the session in their own places
  have hfound : found (inRange (chatPrefix u s)) (stored as) = (as.filter fun a => (slotOf a).Of u s).map filed := by
    rw [listChat_foldl_attempt] at h
    refine eq_of_map_eq ?_ (h.trans (by rw [map_map]; rfl))
    intro e he e' he' heq
    obtain ⟨a,ha,-,rfl⟩ := hsub e ((lasts_sublist _).subset (mem_found_iff.mp he).1)
    obtain ⟨b,hb,rfl⟩ := mem_map.mp he'
    rw [hinj a ha b (mem_filter.mp hb).1 heq]
  refine ⟨?_,?_,?_⟩
  · intro slot hslot hof
    obtain ⟨a,ha,rfl⟩ := mem_map.mp hslot
    have hmem : filed a ∈ found (inRange (chatPrefix u s)) (stored as) := by
      rw [hfound]
      exact mem_map_of_mem (mem_filter.mpr ⟨ha,by simpa using hof⟩)
    obtain ⟨b,hb,hkept,heq⟩ := hsub _ ((lasts_sublist _).subset (mem_found_iff.mp hmem).1)
    rw [← hinj b hb a ha (congrArg Prod.snd heq)]
    exact hkept
  · rw [← ascending_filed_iff,← hfound]
    exact ascending_found _ _
  · intro before slot after hsplit hkept hof hmixed
    obtain ⟨as₁,rest,rfl,-,hrest⟩ := map_eq_append_iff.mp hsplit
    obtain ⟨a,as₂,rfl,rfl,rfl⟩ := map_eq_cons_iff.mp hrest
    have hstored : filed a ∈ stored (a::as₂) := mem_map_of_mem (mem_filter.mpr ⟨mem_cons_self,hkept⟩)
    obtain ⟨e,he,hkey⟩ := exists_mem_lasts hstored
    have hlast : e ∈ lasts (stored (as₁ ++ a::as₂)) := by
      rw [stored,filter_append,map_append]
      exact mem_lasts_append he
    -- the last message in the place is one of the session
    have hin : e ∈ found (inRange (chatPrefix u s)) (stored (as₁ ++ a::as₂)) :=
      mem_found_iff.mpr ⟨hlast,by rw [hkey]; exact inRange_chatKey_iff.mpr hmixed⟩
    rw [hfound] at hin
    obtain ⟨b,hb,rfl⟩ := mem_map.mp hin
    obtain ⟨hb,hbof⟩ := mem_filter.mp hb
    obtain ⟨c,hc,heq⟩ := mem_map.mp ((lasts_sublist _).subset he)
    have hc' : c ∈ a::as₂ := (mem_filter.mp hc).1
    obtain rfl := hinj c (mem_append_right _ hc') b hb (congrArg Prod.snd heq)
    have hbof' : (slotOf c).Of u s := by simpa using hbof
    rcases mem_cons.mp hc' with rfl | hc'
    · exact (hof hbof').elim
    · exact ⟨slotOf c,mem_map_of_mem hc',hbof',hkey⟩

end Attempts

section Calls
variable {u s : Bytes} {calls : List AskCall}

lemma map_slotOf_attempts :
    (calls.flatMap AskCall.attempts).map slotOf = (calls.map AskCall.turn).flatMap Turn.slots := by
  rw [map_flatMap,flatMap_map]
  rfl

lemma asked_eq (hnamed : ∀ c ∈ calls, c.turn.uid ≠ [] ∧ c.turn.sid ≠ []) (hok : ∀ c ∈ calls, c.result.2.2 = none) :
    Chats.asked calls = (calls.flatMap AskCall.attempts).foldl Chats.attempt [] := by
  rw [Chats.asked,foldl_flatMap]
  refine foldl_ext _ _ _ ?_
  intro chats c hc
  exact if_pos ⟨hok c hc,hnamed c hc⟩

lemma history_eq (calls : List AskCall) (u s : Bytes) : history calls u s =
    ((calls.flatMap AskCall.attempts).filter fun a => (slotOf a).Of u s).map fun a => a.1.message := by
  induction calls with
  | nil => rfl
  | cons c calls ih =>
    rw [flatMap_cons,filter_append,map_append,← ih,history,history,filter_cons]
    have huser : (slotOf (c.user,c.turn.userKept)).Of u s ↔ c.turn.uid = u ∧ c.turn.sid = s := Iff.rfl
    have hassistant : (slotOf (c.assistant,c.turn.assistantKept)).Of u s ↔ c.turn.uid = u ∧ c.turn.sid = s := Iff.rfl
    by_cases hof : c.turn.uid = u ∧ c.turn.sid = s <;> simp [AskCall.attempts,huser,hassistant,hof]

def label (n : ℕ) : Bytes := (replicate n 'a').flatMap encode

lemma runes_label (n : ℕ) : runes (label n) = (replicate n 'a').map some := by
  have hrunes := runes_flatMap_append (replicate n 'a') []
  rwa [append_nil,runes_nil,append_nil] at hrunes

lemma toValid_label (n : ℕ) : toValid (label n) = label n := by
  refine toValid_of_valid ?_
  rw [Valid,runes_label]
  simp

lemma label_injective : Function.Injective label := by
  intro m n h
  have hrunes := congrArg (fun b => (runes b).length) h
  simpa [runes_label] using hrunes

def Turn.echo (t : Turn) (n : ℕ) : AskCall := ⟨t,label n,some [],[label n],true⟩

lemma content_echo {t : Turn} {n : ℕ} {a : ChatAppend × Bool} (ha : a ∈ (t.echo n).attempts) :
    a.1.message.content = label n := by
  rcases mem_pair.mp ha with rfl | rfl
  · exact toValid_label n
  · refine Eq.trans ?_ (toValid_label n)
    simp [AskCall.assistant,AskCall.answer,ChatAppend.message,Turn.echo]

def labelled : ℕ → List Turn → List AskCall
  | _,[] => []
  | n,t::turns => t.echo n::labelled (n+1) turns

lemma map_turn_labelled (n : ℕ) (turns : List Turn) : (labelled n turns).map AskCall.turn = turns := by
  induction turns generalizing n with
  | nil => rfl
  | cons t turns ih =>
    rw [labelled,map_cons,ih]
    rfl

lemma result_labelled {n : ℕ} {turns : List Turn} {c : AskCall} (hc : c ∈ labelled n turns) :
    c.result.2.2 = none := by
  induction turns generalizing n with
  | nil => cases hc
  | cons t turns ih =>
    rcases mem_cons.mp hc with rfl | hc
    · rfl
    · exact ih hc

lemma content_labelled {n : ℕ} {turns : List Turn} {a : ChatAppend × Bool}
    (ha : a ∈ (labelled n turns).flatMap AskCall.attempts) : ∃ m ≥ n, a.1.message.content = label m := by
  induction turns generalizing n with
  | nil => cases ha
  | cons t turns ih =>
    rw [labelled,flatMap_cons,mem_append] at ha
    rcases ha with ha | ha
    · exact ⟨n,le_rfl,content_echo ha⟩
    · obtain ⟨m,hm,hcontent⟩ := ih ha
      exact ⟨m,by omega,hcontent⟩

lemma nodup_labelled (n : ℕ) (turns : List Turn) :
    (((labelled n turns).flatMap AskCall.attempts).map fun a => a.1.message).Nodup := by
  induction turns generalizing n with
  | nil => exact nodup_nil
  | cons t turns ih =>
    rw [labelled,flatMap_cons,map_append,nodup_append]
    refine ⟨?_,ih (n+1),?_⟩
    · have hrole : (t.echo n).user.message ≠ (t.echo n).assistant.message := by
        intro heq
        have hrole : ascii "user".toList = ascii "assistant".toList := congrArg ChatMessage.role heq
        exact absurd hrole (by decide +kernel)
      exact nodup_cons.mpr ⟨fun hmem => hrole (mem_singleton.mp hmem),nodup_singleton _⟩
    · intro x hx y hy heq
      obtain ⟨a,ha,rfl⟩ := mem_map.mp hx
      obtain ⟨b,hb,rfl⟩ := mem_map.mp hy
      obtain ⟨m,hm,hcontent⟩ := content_labelled hb
      rw [← heq,content_echo ha] at hcontent
      have := label_injective hcontent
      omega

/-- The history of a session is kept exactly if its turns are orderly among those of all sessions. -/
theorem keepsHistory_iff {turns : List Turn} (hnamed : ∀ t ∈ turns, t.uid ≠ [] ∧ t.sid ≠ []) (u s : Bytes) :
    KeepsHistory turns u s ↔ Orderly u s (turns.flatMap Turn.slots) := by
  have hcalls : ∀ calls : List AskCall, calls.map AskCall.turn = turns → ∀ c ∈ calls, c.turn.uid ≠ [] ∧
    c.turn.sid ≠ [] :=
    fun calls hturns c hc => hnamed c.turn (hturns ▸ mem_map_of_mem hc)
  constructor
  · intro hkeeps
    have hturns := map_turn_labelled 0 turns
    have hlist := hkeeps _ hturns fun c hc => result_labelled hc
    rw [asked_eq (hcalls _ hturns) fun c hc => result_labelled hc,history_eq] at hlist
    have horderly := orderly_of_listChat (nodup_labelled 0 turns) hlist
    rwa [map_slotOf_attempts,hturns] at horderly
  · intro horderly calls hturns hok
    rw [asked_eq (hcalls calls hturns) hok,history_eq]
    refine listChat_of_orderly ?_
    rw [map_slotOf_attempts,hturns]
    exact horderly

def twoSessions : List Turn :=
  [⟨[97],[98],1700000000,1700000000,1700000000,true,true⟩,⟨[99],[100],1700000000,1700000000,1700000000,true,true⟩,
    ⟨[97],[98],1700000001,1700000001,1700000001,true,true⟩]

theorem keepsHistory_of_seconds : KeepsHistory twoSessions [97] [98] := by
  refine (keepsHistory_iff (by decide) [97] [98]).mpr ⟨by decide,by decide +kernel,?_⟩
  have hother : ∀ a ∈ twoSessions.flatMap Turn.slots, ¬a.Of [97] [98] → a.uid = [99] ∧ a.sid = [100] := by decide
  intro before a after hsplit _ hof hmixed
  obtain ⟨huid,hsid⟩ := hother a (hsplit ▸ mem_append_right _ mem_cons_self) hof
  rw [huid,hsid] at hmixed
  exact (hmixed (apart_of_no_colons (by decide) (by decide) (by decide) (by decide) (by decide))).elim

/-- The second question of a second replaces the first one. -/
theorem second_turn_replaces :
    (Chats.asked
      [⟨⟨[97],[98],1700000000,1700000000,1700000000,true,true⟩,ascii ['h','i'],some [],[ascii ['y','e','s']],true⟩,
        ⟨⟨[97],[98],1700000000,1700000000,1700000000,true,true⟩,ascii ['b','y','e'],some [],[ascii ['n','o']],
          true⟩]).listChat
        [97] [98] =
      [⟨ascii ['u','s','e','r'],ascii ['b','y','e'],[],1700000000⟩,
        ⟨ascii ['a','s','s','i','s','t','a','n','t'],ascii ['n','o'],[],1700000000⟩] := by
  decide +kernel

end Calls
end TitanKV.Services.Rag
