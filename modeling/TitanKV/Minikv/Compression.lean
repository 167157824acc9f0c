import TitanKV.Minikv.Posix

/-! Block compression. The two libraries are given as functions that lose nothing. -/
namespace TitanKV.Minikv

inductive CompressionType
  | none
  | snappy
  | zstd
  | other (code : UInt8)
  deriving DecidableEq, Repr

namespace CompressionType

def code : CompressionType → UInt8
  | none => 0
  | snappy => 1
  | zstd => 2
  | other c => c

def ofCode (c : UInt8) : CompressionType :=
  if c = 0 then none else if c = 1 then snappy else if c = 2 then zstd else other c

end CompressionType

/-- snappy and zstd. `zstdDecompress` gets the capacity of its output buffer and returns the
bytes it produced; an error is its name. No compressed text is empty: both formats begin with
the size of the input. -/
structure Codec where
  snappyCompress : Bytes → Bytes
  snappyUncompress : Bytes → Option Bytes
  zstdCompress : Bytes → Except String Bytes
  zstdDecompress : Bytes → ℕ → Except String Bytes
  snappy_lossless : ∀ input, snappyUncompress (snappyCompress input) = some input
  snappy_nonempty : ∀ input, snappyCompress input ≠ []
  zstd_lossless : ∀ input out, zstdCompress input = .ok out → zstdDecompress out input.length = .ok input
  zstd_nonempty : ∀ input, zstdCompress input ≠ .ok []

variable (codec : Codec)

def compressBlock (type : CompressionType) (input : Bytes) : Except Status Bytes :=
  match type with
  | .none => .ok input
  | .snappy => .ok (codec.snappyCompress input)
  | .zstd =>
    match codec.zstdCompress input with
    | .ok out => .ok out
    | .error name => .error (.IOError name)
  | .other _ => .error (.NotSupported "unknown compression type")

def decompressBlock (type : CompressionType) (compressed : Bytes) (uncompressedSize : ℕ) :
    Except Status Bytes :=
  match type with
  | .none => .ok compressed
  | .snappy =>
    match codec.snappyUncompress compressed with
    | none => .error (.Corruption "snappy decompress failed")
    | some out =>
      if out.length ≠ uncompressedSize then .error (.Corruption "snappy decompressed size mismatch")
      else .ok out
  | .zstd =>
    match codec.zstdDecompress compressed uncompressedSize with
    | .error name => .error (.Corruption name)
    | .ok out =>
      if out.length ≠ uncompressedSize then .error (.Corruption "zstd decompressed size mismatch")
      else .ok out
  | .other _ => .error (.NotSupported "unknown compression type")

/-- What is stored for a block, and how: compressed only if that makes it smaller. -/
def blockPayload (compression : CompressionType) (raw : Bytes) : Bytes × CompressionType :=
  if compression = .none then (raw,.none)
  else
    match compressBlock codec compression raw with
    | .error _ => (raw,.none)
    | .ok compressed => if compressed.length<raw.length then (compressed,compression) else (raw,.none)

variable {type : CompressionType}

lemma decompressBlock_compressBlock {raw out : Bytes}
    (h : compressBlock codec type raw = .ok out) : decompressBlock codec type out raw.length = .ok raw := by
  cases type with
  | none =>
    cases h
    rfl
  | snappy =>
    cases h
    simp [decompressBlock,codec.snappy_lossless]
  | zstd =>
    simp only [compressBlock] at h
    cases hz : codec.zstdCompress raw with
    | error name => simp [hz] at h
    | ok out' =>
      rw [hz] at h
      cases h
      simp [decompressBlock,codec.zstd_lossless raw _ hz]
  | other c => cases h

lemma compressBlock_nonempty {raw out : Bytes} (hne : raw ≠ [])
    (h : compressBlock codec type raw = .ok out) : out ≠ [] := by
  cases type with
  | none =>
    cases h
    exact hne
  | snappy =>
    cases h
    exact codec.snappy_nonempty raw
  | zstd =>
    simp only [compressBlock] at h
    cases hz : codec.zstdCompress raw with
    | error name => simp [hz] at h
    | ok out' =>
      rw [hz] at h
      cases h
      rintro rfl
      exact codec.zstd_nonempty raw hz
  | other c => cases h

/-- A stored payload leads back to the block, is not empty and not longer than the block. -/
theorem blockPayload_spec (compression : CompressionType) {raw : Bytes} (hne : raw ≠ []) :
    decompressBlock codec (.ofCode (blockPayload codec compression raw).2.code)
        (blockPayload codec compression raw).1 raw.length = .ok raw ∧
      (blockPayload codec compression raw).1 ≠ [] ∧
      (blockPayload codec compression raw).1.length≤raw.length := by
  rw [blockPayload]
  split
  · exact ⟨rfl,hne,le_rfl⟩
  · split
    · exact ⟨rfl,hne,le_rfl⟩
    · rename_i compressed hc
      split
      · rename_i hlt
        have hcode : CompressionType.ofCode compression.code = compression := by
          cases compression with
          | other c => cases hc
          | _ => rfl
        rw [hcode]
        exact ⟨decompressBlock_compressBlock codec hc,compressBlock_nonempty codec hne hc,hlt.le⟩
      · exact ⟨rfl,hne,le_rfl⟩

end TitanKV.Minikv
