import TitanKV.Minikv.InternalKey

/-! The in-memory table. The skip list is represented by its level-0 chain, which is the
order in which `entries` and `get` walk it; the chain is strictly increasing by construction. -/
namespace TitanKV.Minikv
open List

structure Entry where
  key : InternalKey
  value : Bytes
  deriving DecidableEq, Repr

abbrev Ascending (es : List Entry) : Prop := es.Pairwise fun a b => a.key.Lt b.key

/-- `SkipList::put` on the level-0 chain: walk while smaller, then overwrite or link in. -/
def skipPut (key : InternalKey) (value : Bytes) : List Entry → List Entry
  | [] => [⟨key,value⟩]
  | x::xs =>
    if x.key.compare key = .lt then x::skipPut key value xs
    else if x.key = key then ⟨key,value⟩::xs
    else ⟨key,value⟩::x::xs

variable {es : List Entry} {key : InternalKey} {e : Entry}

lemma mem_skipPut {value : Bytes}
    (h : e ∈ skipPut key value es) : e = ⟨key,value⟩ ∨ e ∈ es := by
  induction es with
  | nil => simpa [skipPut] using h
  | cons x xs ih =>
    rw [skipPut] at h
    split at h
    · rcases mem_cons.mp h with rfl | h
      · exact .inr (by simp)
      · exact (ih h).imp_right (by simp_all)
    · split at h
      · exact (mem_cons.mp h).imp_right (mem_cons_of_mem x)
      · exact mem_cons.mp h

lemma mem_skipPut_of_fresh {value : Bytes}
    (hfresh : ∀ x ∈ es, x.key ≠ key) : e ∈ skipPut key value es ↔ e = ⟨key,value⟩ ∨ e ∈ es := by
  induction es with
  | nil => simp [skipPut]
  | cons x xs ih =>
    rw [skipPut,if_neg (hfresh x (by simp))]
    split
    · rw [mem_cons,mem_cons,ih fun y hy => hfresh y (by simp [hy])]
      tauto
    · rw [mem_cons]

theorem ascending_skipPut (key : InternalKey) (value : Bytes)
    (h : Ascending es) : Ascending (skipPut key value es) := by
  induction es with
  | nil => simp [skipPut,Ascending]
  | cons x xs ih =>
    obtain ⟨hx,hxs⟩ := pairwise_cons.mp h
    rw [skipPut]
    split
    · rename_i hlt
      refine pairwise_cons.mpr ⟨?_,ih hxs⟩
      intro e he
      rcases mem_skipPut he with rfl | he
      · exact hlt
      · exact hx e he
    · rename_i hlt
      split
      · rename_i heq
        subst heq
        exact pairwise_cons.mpr ⟨hx,hxs⟩
      · rename_i hne
        have hkx := InternalKey.lt_of_not_lt hlt hne
        refine pairwise_cons.mpr ⟨?_,h⟩
        intro e he
        rcases mem_cons.mp he with rfl | he
        · exact hkx
        · exact InternalKey.lt_trans hkx (hx e he)

/-- The first version of a user key, which in an ascending run is the newest. -/
def newest (es : List Entry) (userKey : Bytes) : Option Entry :=
  es.find? fun e => e.key.userKey = userKey

lemma newest_eq_none_iff {k : Bytes} :
    newest es k = none ↔ ∀ e ∈ es, e.key.userKey ≠ k := by
  simp [newest]

lemma userKey_of_newest {k : Bytes} (h : newest es k = some e) :
    e.key.userKey = k := by
  simpa using find?_some h

/-- The lookup loop shared by `MemTable::get` and `BlockReader::getByUserKey`: skip smaller
user keys, stop at a larger one, and report a tombstone like an absent key. -/
def lookup (userKey : Bytes) : List Entry → Option Bytes
  | [] => none
  | e::es =>
    match compare e.key.userKey userKey with
    | .lt => lookup userKey es
    | .gt => none
    | .eq => if e.key.isDeletion then none else some e.value

def Entry.live (e : Entry) : Option Bytes := if e.key.isDeletion then none else some e.value

lemma newest_eq_none_of_gt {userKey : Bytes}
    (h : Ascending (e::es)) (hgt : compare e.key.userKey userKey = .gt) :
    newest (e::es) userKey = none := by
  apply find?_eq_none.mpr
  intro x hx
  simp only [decide_eq_true_eq]
  rintro rfl
  rcases mem_cons.mp hx with rfl | hx
  · simp [Std.ReflOrd.compare_self] at hgt
  · exact InternalKey.userKey_le ((pairwise_cons.mp h).1 x hx) hgt

theorem lookup_eq (h : Ascending es) (userKey : Bytes) :
    lookup userKey es = (newest es userKey).bind Entry.live := by
  induction es with
  | nil => rfl
  | cons e es ih =>
    have hes := (pairwise_cons.mp h).2
    rw [lookup]
    split
    · rename_i hc
      have hne : e.key.userKey ≠ userKey := by
        rintro rfl
        simp [Std.ReflOrd.compare_self] at hc
      rw [ih hes]
      simp [newest,hne]
    · rename_i hc
      rw [newest_eq_none_of_gt h hc]
      rfl
    · rename_i hc
      have he := Std.LawfulEqOrd.eq_of_compare hc
      simp [newest,he,Entry.live]

/-- An entry newer than every stored version of its user key becomes the newest one. -/
theorem newest_skipPut (value : Bytes)
    (h : ∀ e ∈ es, e.key.userKey = key.userKey → e.key.seq<key.seq) (userKey : Bytes) :
    newest (skipPut key value es) userKey =
      if key.userKey = userKey then some ⟨key,value⟩ else newest es userKey := by
  induction es with
  | nil => by_cases hk : key.userKey = userKey <;> simp [skipPut,newest,hk]
  | cons x xs ih =>
    have htail := ih (fun e he => h e (by simp [he]))
    rw [skipPut]
    split
    · rename_i hlt
      have hxk : x.key.userKey ≠ key.userKey := by
        intro hu
        have hseq := h x (by simp) hu
        have hle := InternalKey.seq_le hlt hu
        omega
      by_cases hxu : x.key.userKey = userKey
      · have hku : key.userKey ≠ userKey := fun hk => hxk (hxu.trans hk.symm)
        simp [newest,hxu,hku]
      · simpa [newest,hxu] using htail
    · split
      · rename_i heq
        have hseq := h x (by simp) (by rw [heq])
        rw [heq] at hseq
        omega
      · by_cases hk : key.userKey = userKey <;> simp [newest,hk]

structure MemTable where
  chain : List Entry
  ascending : Ascending chain

namespace MemTable

def empty : MemTable := ⟨[],List.Pairwise.nil⟩

def put (m : MemTable) (userKey value : Bytes) (seq : ℕ) (isDelete : Bool) : MemTable :=
  let type : ValueType := if isDelete then .deletion else .value
  let val := if isDelete then [] else value
  ⟨skipPut ⟨userKey,seq,type⟩ val m.chain,ascending_skipPut _ _ m.ascending⟩

/-- The snapshot argument `seq` is not consulted. -/
def get (m : MemTable) (userKey : Bytes) (_seq : ℕ) : Option Bytes := lookup userKey m.chain

def isEmpty (m : MemTable) : Bool := m.chain.isEmpty

def sizeofSkipNode : ℕ := 88

/-- `mem_usage_`; an encoded key is eight bytes longer than its user key. -/
def approximateMemoryUsage (m : MemTable) : ℕ :=
  (m.chain.map fun e => sizeofSkipNode+(e.key.userKey.length+8)+e.value.length).sum

theorem get_eq (m : MemTable) (userKey : Bytes) (seq : ℕ) :
    m.get userKey seq = (newest m.chain userKey).bind Entry.live := lookup_eq m.ascending userKey

end MemTable
end TitanKV.Minikv
