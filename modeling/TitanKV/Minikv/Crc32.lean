import TitanKV.Minikv.Coding

/-! The checksum of WAL records, MANIFEST records and SSTable blocks. -/
namespace TitanKV.Minikv

def crcTable (i : UInt32) : UInt32 :=
  (List.range 8).foldl
    (fun (c : UInt32) _ => if c &&& 1 ≠ 0 then (0x82F63B78 : UInt32) ^^^ (c >>> 1) else c >>> 1) i

def crcStep (crc : UInt32) (b : UInt8) : UInt32 :=
  crcTable ((crc ^^^ b.toUInt32) &&& 0xFF) ^^^ (crc >>> 8)

/-- `static_cast < int>` of a size. -/
def toInt (size : ℕ) : ℤ := (size : ℤ).bmod (2^32)

/-- `len` is a C++ `int`: a negative one runs no iteration. -/
def crc32c (data : Bytes) (len : ℤ) : UInt32 :=
  (data.take len.toNat).foldl crcStep 0xFFFFFFFF ^^^ 0xFFFFFFFF

lemma recordHeader_pos : 0<8 := by norm_num

end TitanKV.Minikv
