import TitanKV.Library.Parsing
import TitanKV.Minikv.Coding

/-! Write batches and the byte encoding in which a write group enters the WAL: the
operations of all its batches, one after another, each with its two lengths up front. -/
namespace TitanKV.Minikv
open Parsing List

inductive BatchOpType
  | put
  | delete
  deriving DecidableEq, Repr

structure BatchOp where
  type : BatchOpType
  key : Bytes
  value : Bytes
  deriving DecidableEq, Repr

abbrev WriteBatch := List BatchOp

abbrev WriteGroup := List WriteBatch

def BatchOpType.code : BatchOpType → UInt8
  | put => 1
  | delete => 2

def encodeOp (op : BatchOp) : Bytes :=
  op.type.code::(encodeFixed32 op.key.length ++ encodeFixed32 op.value.length ++ op.key++op.value)

def encodeGroup (group : WriteGroup) : Bytes := group.flatten.flatMap encodeOp

/-- One iteration of the decoding loop of `replayWalFile`. The code does not check that a
record holds the bytes its lengths announce; such a record is where the model stops. -/
def decodeOp : Bytes → Option (BatchOp × Bytes)
  | [] => none
  | type::p =>
    let keyLen := decodeFixed32 p
    let valLen := decodeFixed32 (p.drop 4)
    if p.length<8+keyLen+valLen then none
    else some (⟨if type = 2 then .delete else .put,(p.drop 8).take keyLen,
      (p.drop (8+keyLen)).take valLen⟩,p.drop (8+keyLen+valLen))

def decodeOps (record : Bytes) : List BatchOp := many decodeOp record

lemma decodeOp_consumes : Consumes decodeOp := by
  intro s op rest h
  cases s with
  | nil => simp [decodeOp] at h
  | cons type p =>
    simp only [decodeOp] at h
    split at h
    · contradiction
    · obtain ⟨-,rfl⟩ := h
      simp only [length_drop,length_cons]
      omega

lemma length_encodeOp (op : BatchOp) :
    (encodeOp op).length = 9+op.key.length+op.value.length := by
  simp [encodeOp]
  omega

/-- The lengths of an operation fit their four bytes. -/
def BatchOp.Fits (op : BatchOp) : Prop := op.key.length<2^32 ∧ op.value.length<2^32

theorem decodeOp_encodeOp {op : BatchOp} (h : op.Fits) (rest : Bytes) :
    decodeOp (encodeOp op ++ rest) = some (op,rest) := by
  obtain ⟨type,key,value⟩ := op
  obtain ⟨hk,hv⟩ := h
  have hkeyLen : decodeFixed32 (encodeFixed32 key.length ++ encodeFixed32 value.length ++ key ++
      value++rest) = key.length := by
    rw [append_assoc,append_assoc,append_assoc,decodeFixed32_encode,Nat.mod_eq_of_lt hk]
  have hdrop : (encodeFixed32 key.length ++ encodeFixed32 value.length ++ key++value++rest).drop 4
      = encodeFixed32 value.length ++ (key++value++rest) := by
    rw [append_assoc,append_assoc,append_assoc,
      drop_left' (length_encodeFixed32 key.length)]
    simp
  have hvalLen : decodeFixed32 (encodeFixed32 value.length ++ (key++value++rest)) = value.length := by
    rw [decodeFixed32_encode,Nat.mod_eq_of_lt hv]
  have hbody : (encodeFixed32 key.length ++ encodeFixed32 value.length ++ key++value++rest).drop 8
      = key++(value++rest) := by
    rw [show (8 : ℕ) = 4+4 by rfl,← drop_drop,hdrop,drop_left' (length_encodeFixed32 _)]
    simp
  have htype : (if type.code = 2 then BatchOpType.delete else .put) = type := by
    cases type <;> rfl
  rw [encodeOp,cons_append,decodeOp]
  simp only [hkeyLen,hdrop,hvalLen]
  rw [if_neg (by simp; omega),← drop_drop,← drop_drop,← drop_drop,hbody,htype]
  simp

theorem decodeOps_encodeGroup {group : WriteGroup} (h : ∀ op ∈ group.flatten, op.Fits) :
    decodeOps (encodeGroup group) = group.flatten := by
  have hm := many_flatMap decodeOp_consumes encodeOp group.flatten []
    (fun op hop rest => decodeOp_encodeOp (h op hop) rest)
  rw [append_nil] at hm
  rw [decodeOps,encodeGroup,hm,many_of_none rfl,append_nil]

lemma fits_of_length_encodeGroup {group : WriteGroup} (h : (encodeGroup group).length<2^32)
    {op : BatchOp} (hop : op ∈ group.flatten) : op.Fits := by
  have hle : (encodeOp op).length≤(encodeGroup group).length := by
    rw [encodeGroup,length_flatMap]
    exact single_le_sum (by simp) _ (mem_map_of_mem hop)
  rw [length_encodeOp] at hle
  constructor <;> omega

end TitanKV.Minikv
