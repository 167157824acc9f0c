import TitanKV.Minikv.Paths
import TitanKV.Services.Rag.HnswIndex

/-! Names of chunks: the id that the index knows a chunk by, and the keys that minikv knows it by. -/
namespace TitanKV.Services.Rag
open Minikv List

def slash : UInt8 := 47

def colon : UInt8 := 58

def padded (n : ℤ) : Bytes :=
  let sign := if n<0 then ascii ['-'] else []
  sign ++ replicate (8-sign.length-(decimal n.natAbs).length) 48 ++ decimal n.natAbs

def chunkID (col docID : Bytes) (seq : ℤ) : Bytes := col ++ slash::docID ++ slash::padded seq

def chunkKey (col docID : Bytes) (seq : ℤ) : Bytes := ascii "rag:chunk:".toList ++ col ++ colon::docID ++
    colon::padded seq

def cutSlash (id : Bytes) : Option (Bytes × Bytes) :=
  if id.all (· ≠ slash) then none else some (id.takeWhile (· ≠ slash),(id.dropWhile (· ≠ slash)).drop 1)

/-- The digits are added up with the arithmetic of `int`. -/
def parseChunkID (id : Bytes) : Option (Bytes × Bytes × ℤ) :=
  match cutSlash id with
  | none => none
  | some (col,rest) =>
    match cutSlash rest with
    | none => none
    | some (docID,digits) =>
      if digits.all fun b => 48≤b ∧ b≤57 then
        some (col,docID,digits.foldl (fun n b => goInt (n*10+(b.toNat-48))) 0)
      else none

structure ChunkRecord where
  chunkID : Bytes
  col : Bytes
  docID : Bytes
  seq : ℤ
  heading : Bytes
  text : Bytes
  deriving DecidableEq,Repr

lemma goInt_of_nonneg {z : ℤ} (h0 : 0≤z) (h : z<2^63) : goInt z = z := by
  exact Int.bmod_eq_of_le (by omega) (by omega)

lemma padded_natCast (seq : ℕ) : padded seq = replicate (8-(decimal seq).length) 48 ++ decimal seq := by
  have hsign : ¬(seq : ℤ)<0 := by omega
  simp [padded,if_neg hsign]

lemma mem_padded {seq : ℕ} {b : UInt8} (hb : b ∈ padded seq) : 48≤b.toNat ∧ b.toNat≤57 := by
  rw [padded_natCast,mem_append] at hb
  obtain hb | hb := hb
  · rw [eq_of_mem_replicate hb]
    decide
  · exact mem_decimal hb

end TitanKV.Services.Rag
