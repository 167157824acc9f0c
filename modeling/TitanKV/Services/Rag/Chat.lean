import TitanKV.Services.Rag.Store

/-! The chat histories that the RAG service keeps in minikv. The key of a message joins the user, the session and the
number of the message with colons, and a history is what a scan finds behind the first two. -/
namespace TitanKV.Services.Rag
open Minikv List

def chatKey (uid sid : Bytes) (seq : ℤ) : Bytes := ascii "rag:chat:".toList ++ uid ++ colon::sid ++ colon::padded seq

def chatPrefix (uid sid : Bytes) : Bytes := ascii "rag:chat:".toList ++ uid ++ colon::sid ++ [colon]

structure ChatMessage where
  role : Bytes
  content : Bytes
  citations : List Bytes
  createdAt : ℤ
  deriving DecidableEq,Repr

/-- The arguments of a call of `AppendChat`, and the time of the clock. -/
structure ChatAppend where
  uid : Bytes
  sid : Bytes
  role : Bytes
  content : Bytes
  citations : List Bytes
  seq : ℤ
  now : ℤ
  deriving DecidableEq,Repr

abbrev Chats := Directory Bytes ChatMessage

namespace Chats

def appendChat (chats : Chats) (c : ChatAppend) : Chats :=
  chats.set (chatKey c.uid c.sid c.seq) ⟨c.role,c.content,c.citations,c.now⟩

def listChat (chats : Chats) (uid sid : Bytes) : List ChatMessage := Kv.scanned id (chatPrefix uid sid) chats

end Chats

/-- What is appended for the second session is not listed for the first one and leaves its messages as they are. -/
structure Separate (u s u' s' : Bytes) : Prop where
  unseen : ∀ (chats : Chats) (calls : List ChatAppend), (calls.foldl Chats.appendChat chats).listChat u s =
    ((calls.filter fun c => ¬(c.uid = u' ∧ c.sid = s')).foldl Chats.appendChat chats).listChat u s
  kept : ∀ (chats : Chats) (c : ChatAppend), c.uid = u' → c.sid = s' → ∀ seq,
    (chats.appendChat c).get (chatKey u s seq) = chats.get (chatKey u s seq)

/-- The names of the second session do not start with those of the first one, unless a byte 255 follows. -/
def Apart (u s u' s' : Bytes) : Prop :=
  ∀ rest, u' ++ colon::s' ++ [colon] = u ++ colon::s ++ [colon]++rest → rest.head? = some 255

lemma mem_padded_ne {n : ℤ} {b : UInt8} (hb : b ∈ padded n) : b ≠ colon ∧ b ≠ 255 := by
  have hdigit (h : 48≤b.toNat ∧ b.toNat≤57) : b ≠ colon ∧ b ≠ 255 :=
    ⟨by rintro rfl; exact absurd h.2 (by decide),by rintro rfl; exact absurd h.2 (by decide)⟩
  simp only [padded,mem_append] at hb
  obtain (hb | hb) | hb := hb
  · have hsign : b = 45 := by
      split at hb
      · simpa [ascii] using hb
      · simp at hb
    exact hsign ▸ by decide
  · exact hdigit (eq_of_mem_replicate hb ▸ by decide)
  · exact hdigit (mem_decimal hb)

lemma compare_255_eq_lt_iff {rest : Bytes} : compare rest [255] = .lt ↔ rest.head? ≠ some 255 := by
  cases rest with
  | nil => decide
  | cons b rest =>
    by_cases hb : b = 255
    · subst hb
      cases rest <;> simp [Ordering.then]
    · have hlt : compare b 255 = .lt := by
        rw [Std.compare_eq_lt,UInt8.lt_iff_toNat_lt]
        have hle := b.toNat_lt
        have hne : b.toNat ≠ 255 := fun h => hb (UInt8.toNat_inj.mp h)
        simp only [show (255 : UInt8).toNat = 255 from rfl]
        omega
      simp [hlt,hb]

section Keys
variable {u s u' s' : Bytes}

lemma head?_append_padded {rest : Bytes} {seq : ℤ} :
    (rest ++ padded seq).head? ≠ some 255 ↔ rest.head? ≠ some 255 := by
  cases rest with
  | nil =>
    have hpadded : (padded seq).head? ≠ some 255 := fun h => (mem_padded_ne (mem_of_mem_head? h)).2 rfl
    simpa using hpadded
  | cons b rest => simp

/-- A scan for the first session finds the messages of the second one exactly if their names are not apart. -/
lemma inRange_chatKey_iff {seq : ℤ} : inRange (chatPrefix u s) (chatKey u' s' seq) = true ↔ ¬Apart u s u' s' := by
  have hkey : chatKey u' s' seq = ascii "rag:chat:".toList ++ (u' ++ colon::s' ++ [colon] ++ padded seq) := by
    simp [chatKey]
  have hpre : chatPrefix u s = ascii "rag:chat:".toList ++ (u ++ colon::s ++ [colon]) := by simp [chatPrefix]
  simp only [inRange_iff,hkey,hpre,Apart,not_forall]
  constructor
  · intro ⟨rest,heq,hlt⟩
    rw [append_assoc _ _ rest,append_cancel_left_eq] at heq
    obtain ⟨more,hmore,hpadded⟩ | ⟨front,hfront,rfl⟩ := append_eq_append_iff.mp heq
    · -- the names of the first session would end in the number of the message, which has no colon
      cases more using reverseRecOn with
      | nil => exact ⟨[],by simpa using hmore.symm,by simp⟩
      | append_singleton more b =>
        have hlast := (append_inj' (hmore.trans (append_assoc _ more [b]).symm) rfl).2
        have hb : b = colon := by simpa using hlast.symm
        exact absurd hb (mem_padded_ne (n := seq) (by simp [hpadded])).1
    · exact ⟨front,hfront,head?_append_padded.mp (compare_255_eq_lt_iff.mp hlt)⟩
  · intro ⟨rest,heq,hhead⟩
    exact ⟨rest ++ padded seq,by simp [heq],compare_255_eq_lt_iff.mpr (head?_append_padded.mpr hhead)⟩

lemma not_apart_self (u s : Bytes) : ¬Apart u s u s := by
  intro h
  simpa using h [] (by simp)

lemma chatKey_ne (h : Apart u s u' s') (seq seq' : ℤ) : chatKey u s seq ≠ chatKey u' s' seq' := by
  intro heq
  have hown : inRange (chatPrefix u s) (chatKey u s seq) = true := inRange_chatKey_iff.mpr (not_apart_self u s)
  exact inRange_chatKey_iff.mp (heq ▸ hown) h

/-- Sessions are apart whose names have no colons. -/
theorem apart_of_no_colons (hu : colon ∉ u) (hs : colon ∉ s) (hu' : colon ∉ u') (hs' : colon ∉ s')
    (hne : (u,s) ≠ (u',s')) :
    Apart u s u' s' := by
  intro rest heq
  exfalso
  simp only [append_assoc,cons_append] at heq
  obtain ⟨rfl,hrest⟩ := split_first hu' hu heq
  obtain ⟨rfl,-⟩ := split_first hs' hs hrest
  exact hne rfl

end Keys

section Histories
variable {u s u' s' : Bytes} {chats : Chats}

def Chats.within (chats : Chats) (pre : Bytes) : Chats := chats.filter fun f => inRange pre f.1

lemma within_appendChat_of_apart {c : ChatAppend} (h : Apart u s c.uid c.sid) :
    (chats.appendChat c).within (chatPrefix u s) = chats.within (chatPrefix u s) := by
  have hout : inRange (chatPrefix u s) (chatKey c.uid c.sid c.seq) = false := by
    simpa [h] using (@inRange_chatKey_iff u s c.uid c.sid c.seq)
  exact Directory.filter_set_of_neg chats hout _

lemma within_foldl (calls : List ChatAppend) {chats' : Chats} (h : Apart u s u' s')
    (hsame : chats.within (chatPrefix u s) = chats'.within (chatPrefix u s)) :
    (calls.foldl Chats.appendChat chats).within (chatPrefix u s) =
      ((calls.filter fun c => ¬(c.uid = u' ∧ c.sid = s')).foldl Chats.appendChat chats').within
        (chatPrefix u s) := by
  induction calls generalizing chats chats' with
  | nil => exact hsame
  | cons c calls ih =>
    by_cases hc : c.uid = u' ∧ c.sid = s'
    · have hapart : Apart u s c.uid c.sid := by simpa [hc] using h
      simpa [filter_cons,hc] using ih ((within_appendChat_of_apart hapart).trans hsame)
    · have hstep : (chats.appendChat c).within (chatPrefix u s) = (chats'.appendChat c).within (chatPrefix u s) := by
        cases hin : inRange (chatPrefix u s) (chatKey c.uid c.sid c.seq) with
        | false =>
          exact (Directory.filter_set_of_neg chats hin _).trans
            (hsame.trans (Directory.filter_set_of_neg chats' hin _).symm)
        | true =>
          refine (Directory.filter_set_of_pos chats hin _).trans
            (Eq.trans ?_ (Directory.filter_set_of_pos chats' hin _).symm)
          exact congrArg (fun d => Directory.set d _ _) hsame
      rw [filter_cons_of_pos (by simpa [imp_iff_not_or] using hc),foldl_cons,foldl_cons]
      exact ih hstep

/-- The histories of two sessions stay separate exactly if the names of the second do not start with those of the
first. -/
theorem separate_iff_apart (u s u' s' : Bytes) : Separate u s u' s' ↔ Apart u s u' s' := by
  constructor
  · intro h
    by_contra hmixed
    have hin : inRange (chatPrefix u s) (chatKey u' s' 0) = true := inRange_chatKey_iff.mpr hmixed
    have hlists := h.unseen [] [⟨u',s',[],[],[],0,0⟩]
    simp [Chats.listChat,Kv.scanned,Chats.appendChat,Directory.set,Directory.names,hin] at hlists
  · intro h
    refine ⟨fun chats calls => ?_,?_⟩
    · have hwithin := within_foldl calls h (Eq.refl (chats.within (chatPrefix u s)))
      simp only [Chats.within] at hwithin
      simp only [Chats.listChat,Kv.scanned,id_eq,hwithin]
    · intro chats c hu hs seq
      have hne : chatKey u s seq ≠ chatKey c.uid c.sid c.seq := hu ▸ hs ▸ chatKey_ne h seq c.seq
      simp [Chats.appendChat,Directory.get_set,hne]

/-- The message of one session is listed for another one, and overwritten by a third one. -/
theorem histories_mix :
    (Chats.appendChat [] ⟨ascii ['a'],ascii ['b',':','c'],ascii ['u','s','e','r'],ascii ['x'],[],0,0⟩).listChat
      (ascii ['a']) (ascii ['b']) =
        [⟨ascii ['u','s','e','r'],ascii ['x'],[],0⟩] ∧
      ([⟨ascii ['a'],ascii ['b',':','c'],ascii ['u','s','e','r'],ascii ['x'],[],0,0⟩,
          ⟨ascii ['a',':','b'],ascii ['c'],ascii ['u','s','e','r'],ascii ['y'],[],0,0⟩].foldl Chats.appendChat
            []).listChat
          (ascii ['a']) (ascii ['b',':','c']) = [⟨ascii ['u','s','e','r'],ascii ['y'],[],0⟩] := by
  decide +kernel

end Histories
end TitanKV.Services.Rag
