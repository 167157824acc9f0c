import Mathlib.Data.List.MinMax
import TitanKV.Minikv.MemTable

/-! The versions of a user key in a MemTable, and what a snapshot should see of them. `get` does not look at its
snapshot, so it answers for the newest version. -/
namespace TitanKV.Minikv
open List Option

/-- The arguments of a call of `MemTable::put`; the sequence number fits into the trailer of an internal key. -/
structure PutCall where
  userKey : Bytes
  value : Bytes
  seq : ℕ
  isDelete : Bool
  fits : seq<2^56
  deriving DecidableEq,Repr

namespace PutCall

def shown (p : PutCall) : Option Bytes := if p.isDelete then none else some p.value

def entry (p : PutCall) : Entry :=
  ⟨⟨p.userKey,p.seq,if p.isDelete then .deletion else .value⟩,if p.isDelete then [] else p.value⟩

variable (p : PutCall)

@[simp] theorem live_entry : p.entry.live = p.shown := by
  cases hdelete : p.isDelete <;> simp [entry,Entry.live,InternalKey.isDeletion,shown,hdelete]

end PutCall

/-- The version of a user key with the largest sequence number. -/
def latest (puts : List PutCall) (k : Bytes) : Option PutCall :=
  (puts.filter fun p => p.userKey = k).argmax PutCall.seq

/-- The version of a user key with the largest sequence number that does not exceed a snapshot. -/
def visible (puts : List PutCall) (k : Bytes) (s : ℕ) : Option PutCall := latest (puts.filter fun p => p.seq ≤ s) k

namespace MemTable

def putAll (m : MemTable) (puts : List PutCall) : MemTable :=
  puts.foldl (fun m p => m.put p.userKey p.value p.seq p.isDelete) m

lemma mem_chain_putAll {m : MemTable} {puts : List PutCall} (hdistinct : (puts.map PutCall.seq).Nodup)
    (hfresh : ∀ p ∈ puts, ∀ e ∈ m.chain, e.key.seq ≠ p.seq) {e : Entry} :
    e ∈ (m.putAll puts).chain ↔ e ∈ m.chain ∨ ∃ p ∈ puts, p.entry = e := by
  induction puts generalizing m with
  | nil => simp [putAll]
  | cons p puts ih =>
    obtain ⟨hp,hputs⟩ := nodup_cons.mp hdistinct
    have hchain : ∀ {e : Entry}, e ∈ (m.put p.userKey p.value p.seq p.isDelete).chain ↔ e = p.entry ∨
        e ∈ m.chain := by
      intro e
      apply mem_skipPut_of_fresh
      intro x hx hkey
      exact hfresh p mem_cons_self x hx (congrArg InternalKey.seq hkey)
    have hrest : ∀ q ∈ puts, ∀ e ∈ (m.put p.userKey p.value p.seq p.isDelete).chain, e.key.seq ≠ q.seq := by
      intro q hq e he
      rcases hchain.mp he with rfl | he
      · exact fun hseq => hp (mem_map.mpr ⟨q,hq,hseq.symm⟩)
      · exact hfresh q (mem_cons_of_mem p hq) e he
    rw [putAll,foldl_cons,← putAll,ih hputs hrest,hchain,@eq_comm _ e]
    simp only [mem_cons,exists_eq_or_imp]
    tauto

end MemTable

lemma seq_le_of_newest {es : List Entry} (h : Ascending es) {k : Bytes} {e : Entry} (hnewest : newest es k = some e)
    {e' : Entry} (he' : e' ∈ es) (hk : e'.key.userKey = k) : e'.key.seq≤e.key.seq := by
  induction es with
  | nil => cases he'
  | cons x xs ih =>
    obtain ⟨hx,hxs⟩ := pairwise_cons.mp h
    by_cases hxk : x.key.userKey = k
    · have hfirst : x = e := by simpa [newest,hxk] using hnewest
      rcases mem_cons.mp he' with rfl | he'
      · rw [hfirst]
      · rw [← hfirst]
        exact InternalKey.seq_le (hx e' he') (hxk.trans hk.symm)
    · rcases mem_cons.mp he' with rfl | he'
      · exact (hxk hk).elim
      · exact ih hxs (by simpa [newest,hxk] using hnewest) he'

section Latest
variable {puts : List PutCall} {k : Bytes}

lemma latest_eq_none_iff : latest puts k = none ↔ ∀ p ∈ puts, p.userKey ≠ k := by
  rw [latest,argmax_eq_none,filter_eq_nil_iff]
  simp

lemma mem_latest {p : PutCall} (h : p ∈ latest puts k) :
    p ∈ puts ∧ p.userKey = k ∧ ∀ q ∈ puts, q.userKey = k → q.seq≤p.seq := by
  have hmem := mem_filter.mp (argmax_mem h)
  refine ⟨hmem.1,by simpa using hmem.2,?_⟩
  intro q hq hqk
  exact le_of_mem_argmax (mem_filter.mpr ⟨hq,by simpa using hqk⟩) h

theorem newest_putAll (hdistinct : (puts.map PutCall.seq).Nodup) (k : Bytes) :
    newest (MemTable.empty.putAll puts).chain k = (latest puts k).map PutCall.entry := by
  have hmem : ∀ {e : Entry}, e ∈ (MemTable.empty.putAll puts).chain ↔ ∃ p ∈ puts, p.entry = e := by
    intro e
    rw [MemTable.mem_chain_putAll hdistinct fun _ _ _ he => by cases he]
    simp [MemTable.empty]
  cases hlatest : latest puts k with
  | none =>
    rw [map_none,newest_eq_none_iff]
    intro e he
    obtain ⟨p,hp,rfl⟩ := hmem.mp he
    exact latest_eq_none_iff.mp hlatest p hp
  | some p =>
    obtain ⟨hp,hpk,hmax⟩ := mem_latest hlatest
    cases hnewest : newest (MemTable.empty.putAll puts).chain k with
    | none => exact (newest_eq_none_iff.mp hnewest p.entry (hmem.mpr ⟨p,hp,rfl⟩) hpk).elim
    | some e =>
      obtain ⟨q,hq,rfl⟩ := hmem.mp (mem_of_find?_eq_some hnewest)
      have hqk : q.userKey = k := userKey_of_newest hnewest
      have hle : p.seq≤q.seq :=
        seq_le_of_newest (MemTable.empty.putAll puts).ascending hnewest (hmem.mpr ⟨p,hp,rfl⟩) hpk
      have hseq : q.seq = p.seq := le_antisymm (hmax q hq hqk) hle
      rw [map_some,inj_on_of_nodup_map hdistinct hq hp hseq]

lemma visible_eq_latest {s : ℕ} (h : ∀ p ∈ latest puts k, p.seq ≤ s) : visible puts k s = latest puts k := by
  have hfilter : (puts.filter fun p => p.seq ≤ s).filter (fun p => p.userKey = k) =
      puts.filter fun p => p.userKey = k := by
    rw [filter_comm,filter_eq_self]
    intro p hp
    cases hlatest : latest puts k with
    | none =>
      rw [latest,argmax_eq_none] at hlatest
      rw [hlatest] at hp
      cases hp
    | some q =>
      obtain ⟨hmem,hkey⟩ := mem_filter.mp hp
      have hle := (mem_latest hlatest).2.2 p hmem (by simpa using hkey)
      exact decide_eq_true (hle.trans (h q hlatest))
  rw [visible,latest,hfilter,latest]

end Latest

/-- A lookup is right for its snapshot exactly if a newest version that is newer than the snapshot shows what the
snapshot shows. -/
theorem get_eq_visible_iff {puts : List PutCall} (hdistinct : (puts.map PutCall.seq).Nodup) (k : Bytes) (s : ℕ) :
    (MemTable.empty.putAll puts).get k s = (visible puts k s).bind PutCall.shown ↔
      ∀ p ∈ latest puts k, s<p.seq → p.shown = (visible puts k s).bind PutCall.shown := by
  have hget : (MemTable.empty.putAll puts).get k s = (latest puts k).bind PutCall.shown := by
    rw [MemTable.get_eq,newest_putAll hdistinct]
    cases latest puts k <;> simp
  rw [hget]
  constructor
  · intro h p hp _
    rw [← h,mem_def.mp hp,bind_some]
  · intro h
    cases hlatest : latest puts k with
    | none => rw [visible_eq_latest (by simp [hlatest]),hlatest]
    | some p =>
      by_cases hs : s<p.seq
      · exact h p hlatest hs
      · rw [visible_eq_latest (by simpa [hlatest] using hs),hlatest,bind_some]

/-- A version behind the snapshot is overwritten and then deleted: for the key of another one nothing is newer. -/
theorem get_eq_visible_of_calls :
    (MemTable.empty.putAll [⟨[97],[1],3,false,by decide⟩,⟨[98],[2],7,false,by decide⟩,
      ⟨[97],[],5,true,by decide⟩]).get [97] 5 =
      none :=
  (get_eq_visible_iff (by decide) [97] 5).mpr (by decide)

/-- A key is overwritten, and a reader with the snapshot before that gets the new value. -/
theorem get_ignores_snapshot :
    (MemTable.empty.putAll [⟨[97],[1],1,false,by decide⟩,⟨[97],[2],2,false,by decide⟩]).get [97] 1 = some [2] ∧
      visible [⟨[97],[1],1,false,by decide⟩,⟨[97],[2],2,false,by decide⟩] [97] 1 =
        some ⟨[97],[1],1,false,by decide⟩ := by
  decide

end TitanKV.Minikv
