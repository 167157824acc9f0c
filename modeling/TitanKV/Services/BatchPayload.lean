import TitanKV.Minikv.ProcessRequest

/-! The payload that the Go client of the data service sends with a batch, and what the server makes of it. -/
namespace TitanKV.Services
open LittleEndian Minikv List Server DBImpl

/-- One operation of a `WriteBatch` over TCP. -/
structure BatchOp where
  put : Bool
  key : Bytes
  value : Bytes
  deriving DecidableEq, Repr

def cmdBatch : UInt8 := 5

def putUint32 (n : ℕ) : Bytes := bytes 4 n

def BatchOp.encode (op : BatchOp) : Bytes :=
  (if op.put then 1 else 2)::(putUint32 op.key.length ++ op.key ++ putUint32 op.value.length ++ op.value)

def encodeBatchPayload (ops : List BatchOp) : Bytes := putUint32 ops.length ++ ops.flatMap BatchOp.encode

def BatchOp.meant (op : BatchOp) : Minikv.BatchOp :=
  if op.put then ⟨.put,op.key,op.value⟩ else ⟨.delete,op.key,[]⟩

def BatchOp.sent (op : BatchOp) : Minikv.BatchOp := ⟨if op.put then .put else .delete,op.key,op.value⟩

lemma BatchOp.wireOp_sent (op : BatchOp) : wireOp op.sent = op.encode := by
  obtain ⟨put,key,value⟩ := op
  cases put <;> rfl

lemma BatchOp.batched_sent (op : BatchOp) : batched op.sent = op.meant := by
  obtain ⟨put,key,value⟩ := op
  cases put <;> rfl

lemma BatchOp.length_encode (op : BatchOp) : op.encode.length = 9+op.key.length+op.value.length := by
  simp [encode,putUint32]
  omega

lemma length_encodeBatchPayload (ops : List BatchOp) :
    (encodeBatchPayload ops).length = 4+(ops.map fun op => 9+op.key.length+op.value.length).sum := by
  simp only [encodeBatchPayload,putUint32,length_append,length_bytes,length_flatMap,BatchOp.length_encode]

theorem declares_encodeBatchPayload {ops : List BatchOp} (h : (encodeBatchPayload ops).length<2^32) :
    Declares (encodeBatchPayload ops) (ops.map BatchOp.meant) := by
  rw [length_encodeBatchPayload] at h
  have hcount : ops.length≤(ops.map fun op => 9+op.key.length+op.value.length).sum := by
    have hle := length_le_sum_of_one_le (ops.map fun op => 9+op.key.length+op.value.length) (by
      intro n hn
      obtain ⟨op,-,rfl⟩ := mem_map.mp hn
      omega)
    rwa [length_map] at hle
  have hfits : ∀ op ∈ ops, op.sent.Fits := by
    intro op hop
    have hle :=
      single_le_sum (by simp) _ (mem_map_of_mem (f := fun op : BatchOp => 9+op.key.length+op.value.length) hop)
    exact ⟨by change op.key.length < _; omega,by change op.value.length < _; omega⟩
  refine ⟨ops.map BatchOp.sent,?_,?_,⟨[],?_⟩,?_⟩
  · rw [length_map]
    omega
  · intro op hop
    obtain ⟨op',hop',rfl⟩ := mem_map.mp hop
    exact hfits op' hop'
  · rw [append_nil,length_map,flatMap_map]
    simp only [BatchOp.wireOp_sent]
    rfl
  · rw [map_map]
    exact map_congr_left fun op _ => (op.batched_sent).symm

section Request
variable {Q : Heap} {σ : Type*}

/-- The client's batch is one write of the same operations in the same order; and from any payload the server writes
    only a batch that the payload declares as a whole. -/
theorem processRequest_encodeBatchPayload (db : DB Q σ) (ops : List BatchOp)
    (h : (encodeBatchPayload ops).length<2^32) (s : σ) :
    processRequest db (encodeRequest cmdBatch [] (encodeBatchPayload ops)) s =
      some (encodeResponse (written (db.write (ops.map BatchOp.meant) s).1),(db.write (ops.map BatchOp.meant) s).2) ∧
    ∀ val, (∃ batch, Declares val batch ∧
        kBatch db val s = (written (db.write batch s).1,(db.write batch s).2)) ∨
      (∀ batch, ¬Declares val batch) ∧ ∃ r : Response, r.status = .error ∧ kBatch db val s = (r,s) := by
  refine ⟨?_,fun val => kBatch_cases db val s⟩
  have hparse := parseBatch_eq_ok.mpr (declares_encodeBatchPayload h)
  rw [show cmdBatch = Cmd.batch.code from rfl,processRequest_batch db (by simp) h,kBatch,hparse]
  rfl

/-- A put and a deletion that carries a value, sent to an empty database. -/
theorem processRequest_encodeBatchPayload_two :
    (encodeBatchPayload [⟨true,[1],[7]⟩,⟨false,[2],[9]⟩]).length<2^32 ∧
    processRequest (asDB sortedHeap)
        (encodeRequest cmdBatch [] (encodeBatchPayload [⟨true,[1],[7]⟩,⟨false,[2],[9]⟩])) (fresh ⟨100,6⟩) =
      some (encodeResponse ⟨.ok,[]⟩,(fresh ⟨100,6⟩).doWriteGroup [[⟨.put,[1],[7]⟩,⟨.delete,[2],[]⟩]]) :=
  ⟨by decide,(processRequest_encodeBatchPayload (asDB sortedHeap) [⟨true,[1],[7]⟩,⟨false,[2],[9]⟩] (by decide)
    (fresh ⟨100,6⟩)).1⟩

end Request
end TitanKV.Services
