import TitanKV.Library.Layers
import TitanKV.Minikv.DBImpl

/-! What a sequence of operations means for a key, and that the runs of entries built by
writes and by replay hold that meaning. -/
namespace TitanKV.Minikv
open Layers List

namespace BatchOp

/-- A put leaves a value and a delete leaves none; other keys are not concerned. -/
def effect (op : BatchOp) (k : Bytes) : Option (Option Bytes) :=
  if op.key = k then some (match op.type with | .put => some op.value | .delete => none) else none

def isDelete (op : BatchOp) : Bool := op.type = .delete

end BatchOp

/-- The last operation on a key: `none` if there is none, `some none` if it is a delete. -/
def lastOp (ops : List BatchOp) (k : Bytes) : Option (Option Bytes) :=
  overlay (ops.map BatchOp.effect) k

@[simp] theorem lastOp_nil (k : Bytes) : lastOp [] k = none := rfl

theorem lastOp_append (old new : List BatchOp) (k : Bytes) :
    lastOp (old++new) k = (lastOp new k).or (lastOp old k) := by
  rw [lastOp,map_append,overlay_append]
  rfl

theorem lastOp_flatten (generations : List (List BatchOp)) (k : Bytes) :
    lastOp generations.flatten k = overlay (generations.map lastOp) k := by
  rw [lastOp,map_flatten,overlay_flatten,map_map]
  rfl

lemma lastOp_eq_none_iff {ops : List BatchOp} {k : Bytes} :
    lastOp ops k = none ↔ ∀ op ∈ ops, op.key ≠ k := by
  simp [lastOp,overlay_eq_none_iff,BatchOp.effect]

/-- A run of entries answers for every key what the operations leave there. -/
def Holds (es : List Entry) (ops : List BatchOp) : Prop :=
  ∀ k, (newest es k).map Entry.live = lastOp ops k

lemma holds_nil : Holds [] [] := fun _ => rfl

lemma Holds.eq_nil_iff {es : List Entry} {ops : List BatchOp} (h : Holds es ops) :
    es = [] ↔ ops = [] := by
  constructor
  · rintro rfl
    apply eq_nil_iff_forall_not_mem.mpr
    intro op hop
    have hk := (h op.key).symm
    exact lastOp_eq_none_iff.mp hk op hop rfl
  · rintro rfl
    apply eq_nil_iff_forall_not_mem.mpr
    intro e he
    have hk := h e.key.userKey
    rw [lastOp_nil,Option.map_eq_none_iff,newest,find?_eq_none] at hk
    simpa using hk e he

namespace MemTable

def putOps (m : MemTable) (n : ℕ) : List BatchOp → MemTable
  | [] => m
  | op::ops => putOps (m.put op.key op.value n op.isDelete) (n+1) ops

lemma putOps_append (m : MemTable) (n : ℕ) (ops more : List BatchOp) :
    m.putOps n (ops++more) = (m.putOps n ops).putOps (n+ops.length) more := by
  induction ops generalizing m n with
  | nil => rfl
  | cons op ops ih =>
    rw [cons_append,putOps,ih,length_cons,Nat.add_right_comm,Nat.add_assoc]
    rfl

variable {m : MemTable} {n : ℕ}

lemma mem_put {k v : Bytes} {d : Bool} {e : Entry}
    (h : e ∈ (m.put k v n d).chain) : e ∈ m.chain ∨ e.key.seq = n := by
  rcases mem_skipPut h with rfl | h
  · exact .inr rfl
  · exact .inl h

lemma mem_putOps {ops : List BatchOp} {e : Entry}
    (h : e ∈ (m.putOps n ops).chain) : e ∈ m.chain ∨ n≤e.key.seq ∧ e.key.seq<n+ops.length := by
  induction ops generalizing m n with
  | nil => exact .inl h
  | cons op ops ih =>
    rw [length_cons]
    rcases ih h with h | ⟨hlo,hhi⟩
    · rcases mem_put h with h | h
      · exact .inl h
      · exact .inr ⟨by omega,by omega⟩
    · exact .inr ⟨by omega,by omega⟩

lemma holds_put {old : List BatchOp} (op : BatchOp)
    (hseq : ∀ e ∈ m.chain, e.key.seq<n) (h : Holds m.chain old) :
    Holds (m.put op.key op.value n op.isDelete).chain (old++[op]) := by
  intro k
  have hnew := @newest_skipPut m.chain ⟨op.key,n,if op.isDelete then .deletion else .value⟩
    (if op.isDelete then [] else op.value) (fun e he _ => hseq e he) k
  have hput : newest (m.put op.key op.value n op.isDelete).chain k = _ := hnew
  rw [hput,lastOp_append,← h k]
  by_cases hk : op.key = k
  · cases ht : op.type <;>
      simp [hk,ht,lastOp,BatchOp.effect,BatchOp.isDelete,Entry.live,InternalKey.isDeletion]
  · simp [hk,lastOp,BatchOp.effect]

/-- Operations numbered above everything stored take effect in their order. -/
theorem holds_putOps {old : List BatchOp} (ops : List BatchOp)
    (hseq : ∀ e ∈ m.chain, e.key.seq<n) (h : Holds m.chain old) :
    Holds (m.putOps n ops).chain (old++ops) := by
  induction ops generalizing m old n with
  | nil => rwa [append_nil]
  | cons op ops ih =>
    have hstep : ∀ e ∈ (m.put op.key op.value n op.isDelete).chain, e.key.seq<n+1 := by
      intro e he
      rcases mem_put he with he | he
      · exact (hseq e he).trans (Nat.lt_succ_self n)
      · omega
    rw [append_cons]
    exact ih hstep (holds_put op hseq h)

end MemTable

lemma applyBatch_eq (m : MemTable) (base : ℕ) (batch : WriteBatch) :
    applyBatch m base batch = m.putOps (base+1) batch := by
  induction batch generalizing m base with
  | nil => rfl
  | cons op ops ih => exact ih _ _

/-- A group is its operations in the order of its batches, numbered after the counter. -/
theorem applyGroup_eq (m : MemTable) (base : ℕ) (group : WriteGroup) :
    applyGroup m base group = m.putOps (base+1) group.flatten := by
  induction group generalizing m base with
  | nil => rfl
  | cons batch group ih =>
    rw [applyGroup,ih,applyBatch_eq,flatten_cons,MemTable.putOps_append,Nat.add_right_comm]

variable (s : MemTable × ℕ)

theorem foldl_applyOp_eq (ops : List BatchOp) :
    ops.foldl applyOp s = (s.1.putOps s.2 ops,s.2+ops.length) := by
  induction ops generalizing s with
  | nil => rfl
  | cons op ops ih =>
    rw [foldl_cons,ih,length_cons,Nat.add_comm ops.length 1,← Nat.add_assoc]
    rfl

def replayedOps (file : Bytes) : List BatchOp := (walReplay file).flatMap decodeOps

lemma replayWalFile_eq (file : Bytes) :
    replayWalFile s file = (replayedOps file).foldl applyOp s := by
  rw [replayedOps,foldl_flatMap,replayWalFile]

theorem foldl_replayWalFile_eq (wals : List (ℕ × Bytes)) :
    wals.foldl (fun s w => replayWalFile s w.2) s =
      (s.1.putOps s.2 (wals.flatMap fun w => replayedOps w.2),
        s.2+(wals.flatMap fun w => replayedOps w.2).length) := by
  rw [← foldl_applyOp_eq,foldl_flatMap]
  simp only [replayWalFile_eq]

end TitanKV.Minikv
