import TitanKV.Minikv.Crc32

/-! The bloom filter of an SSTable and the file beside the table that it is kept in. -/
namespace TitanKV.Minikv
open List

def murmurMix (k : UInt32) : UInt32 :=
  let k := k*(0x5bd1e995 : UInt32)
  (k ^^^ k >>> 24)*(0x5bd1e995 : UInt32)

/-- The loop over four bytes at a time and the switch on what is left. -/
def murmurBody : UInt32 → Bytes → UInt32
  | h,a::b::c::d::rest =>
    let k := a.toUInt32 ||| b.toUInt32 <<< 8 ||| c.toUInt32 <<< 16 ||| d.toUInt32 <<< 24
    murmurBody ((h*(0x5bd1e995 : UInt32)) ^^^ murmurMix k) rest
  | h,[a,b,c] => (h ^^^ c.toUInt32 <<< 16 ^^^ b.toUInt32 <<< 8 ^^^ a.toUInt32)*0x5bd1e995
  | h,[a,b] => (h ^^^ b.toUInt32 <<< 8 ^^^ a.toUInt32)*0x5bd1e995
  | h,[a] => (h ^^^ a.toUInt32)*0x5bd1e995
  | h,[] => h

def murmurHash2 (data : Bytes) (seed : UInt32) : UInt32 :=
  let h := murmurBody (seed ^^^ UInt32.ofNat data.length) data
  let h := (h ^^^ h >>> 13)*0x5bd1e995
  h ^^^ h >>> 15

structure BloomFilter where
  numHashes : ℤ
  bitsPerKey : ℤ
  bits : Bytes
  deriving DecidableEq, Repr

namespace BloomFilter

/-- The constructor at a false positive rate of 0.01, the only one in use: nine bits, which
make six hashes and twelve bits a key. -/
def init (expectedKeys : ℕ) : BloomFilter := ⟨6,12,replicate (expectedKeys*12/8+1) 0⟩

variable (f : BloomFilter)

/-- The positions of a key, `h1 + i*h2` in 32 bits. -/
def positions (key : Bytes) : List ℕ :=
  let h1 := murmurHash2 key 0xbc9f1d34
  let h2 := murmurHash2 key 0x9e3779b9
  (range f.numHashes.toNat).map fun i => (h1+UInt32.ofNat i*h2).toNat % (f.bits.length*8 % 2^32)

def bitMask (pos : ℕ) : UInt8 := UInt8.ofNat (1 <<< (pos % 8))

def setBit (bits : Bytes) (pos : ℕ) : Bytes := bits.modify (pos/8) (· ||| bitMask pos)

def testBit (bits : Bytes) (pos : ℕ) : Bool := bits.getD (pos/8) 0 &&& bitMask pos ≠ 0

def add (key : Bytes) : BloomFilter := { f with bits := (f.positions key).foldl setBit f.bits }

def mightContain (key : Bytes) : Bool := (f.positions key).all (testBit f.bits)

def addAll (keys : List Bytes) : BloomFilter := keys.foldl add f

def persist : Bytes :=
  encodeFixed32 (f.numHashes % 2^32).toNat ++ encodeFixed32 (f.bitsPerKey % 2^32).toNat ++
    encodeFixed64 f.bits.length ++ f.bits

/-- A read behind the end of the file leaves the bytes of its variable as they were on the
stack, and those of the bits zero. -/
def load (stack content : Bytes) : BloomFilter :=
  let header := content.take 16 ++ stack.drop content.length
  let size := decodeFixed64 (header.drop 8)
  let bits := (content.drop 16).take size
  ⟨toInt (decodeFixed32 header),toInt (decodeFixed32 (header.drop 4)),
    bits ++ replicate (size-bits.length) 0⟩

variable {f}

/-- The filter has bits, and their number and that of the hashes are what they are in memory. -/
structure Sized (f : BloomFilter) : Prop where
  hashes : 0≤f.numHashes ∧ f.numHashes<2^31
  perKey : 0≤f.bitsPerKey ∧ f.bitsPerKey<2^31
  bytes : 0<f.bits.length ∧ f.bits.length<2^29

lemma sized_init {expectedKeys : ℕ} (h : expectedKeys<2^28) : (init expectedKeys).Sized := by
  refine ⟨by simp [init],by simp [init],?_⟩
  simp only [init,length_replicate]
  omega

@[simp] theorem length_setBit (bits : Bytes) (pos : ℕ) : (setBit bits pos).length = bits.length := by
  simp [setBit]

lemma getD_setBit (bits : Bytes) (pos i : ℕ) : (setBit bits pos).getD i 0 =
    if pos/8 = i ∧ i<bits.length then bits.getD i 0 ||| bitMask pos else bits.getD i 0 := by
  simp only [setBit,getD_eq_getElem?_getD,getElem?_modify]
  by_cases hi : i<bits.length
  · by_cases hp : pos/8 = i <;> simp [hp,hi]
  · simp [hi]

lemma or_and_eq_zero {a b c : UInt8} (h : (a ||| b) &&& c = 0) : a &&& c = 0 ∧ b &&& c = 0 := by
  apply UInt8.or_eq_zero_iff.mp
  rw [← h]
  apply UInt8.eq_of_toBitVec_eq
  ext i hi
  simp [Bool.and_or_distrib_right]

variable {bits : Bytes} {q : ℕ}

lemma testBit_setBit_of (pos : ℕ) (h : testBit bits q = true) :
    testBit (setBit bits pos) q = true := by
  simp only [testBit,decide_eq_true_eq] at h ⊢
  rw [getD_setBit]
  split
  · exact fun hzero => h (or_and_eq_zero hzero).1
  · exact h

lemma testBit_setBit_self {pos : ℕ} (h : pos/8 < bits.length) :
    testBit (setBit bits pos) pos = true := by
  have hmask : ∀ i<8, UInt8.ofNat (1 <<< i) ≠ 0 := by decide
  simp only [testBit,decide_eq_true_eq]
  rw [getD_setBit,if_pos ⟨rfl,h⟩]
  intro hzero
  have hself := (or_and_eq_zero hzero).2
  rw [UInt8.and_self] at hself
  exact hmask (pos % 8) (Nat.mod_lt _ (by norm_num)) hself

lemma length_foldl_setBit (ps : List ℕ) (bits : Bytes) : (ps.foldl setBit bits).length = bits.length := by
  induction ps generalizing bits with
  | nil => rfl
  | cons p ps ih => rw [foldl_cons,ih,length_setBit]

lemma testBit_foldl_of (ps : List ℕ) (h : testBit bits q = true) :
    testBit (ps.foldl setBit bits) q = true := by
  induction ps generalizing bits with
  | nil => exact h
  | cons p ps ih => exact ih (testBit_setBit_of p h)

lemma testBit_foldl_of_mem {ps : List ℕ} (hq : q ∈ ps) (h : q/8 < bits.length) :
    testBit (ps.foldl setBit bits) q = true := by
  induction ps generalizing bits with
  | nil => simp at hq
  | cons p ps ih =>
    rcases mem_cons.mp hq with rfl | hq
    · exact testBit_foldl_of ps (testBit_setBit_self h)
    · exact ih hq (by rwa [length_setBit])

lemma positions_add (key key' : Bytes) : (f.add key).positions key' = f.positions key' := by
  simp only [positions,add,length_foldl_setBit]

lemma Sized.add (h : f.Sized) (key : Bytes) : (f.add key).Sized :=
  ⟨h.hashes,h.perKey,by simpa only [BloomFilter.add,length_foldl_setBit] using h.bytes⟩

variable {key : Bytes}

lemma Sized.lt_of_mem_positions (h : f.Sized) (hq : q ∈ f.positions key) :
    q/8 < f.bits.length := by
  obtain ⟨i,-,rfl⟩ := mem_map.mp hq
  have hbytes := h.bytes
  have hsize : f.bits.length*8 % 2^32 = f.bits.length*8 := Nat.mod_eq_of_lt (by omega)
  rw [hsize,Nat.div_lt_iff_lt_mul (by norm_num)]
  exact Nat.mod_lt _ (by omega)

lemma Sized.mightContain_add (h : f.Sized) (key : Bytes) : (f.add key).mightContain key = true := by
  rw [mightContain,positions_add,all_eq_true]
  intro q hq
  exact testBit_foldl_of_mem hq (h.lt_of_mem_positions hq)

lemma mightContain_add_of (key' : Bytes) (h : f.mightContain key = true) :
    (f.add key').mightContain key = true := by
  rw [mightContain,all_eq_true] at h
  rw [mightContain,positions_add,all_eq_true]
  intro q hq
  exact testBit_foldl_of _ (h q hq)

lemma mightContain_addAll_of (keys : List Bytes) (h : f.mightContain key = true) :
    (f.addAll keys).mightContain key = true := by
  induction keys generalizing f with
  | nil => exact h
  | cons k keys ih => exact ih (mightContain_add_of k h)

lemma Sized.addAll (h : f.Sized) (keys : List Bytes) : (f.addAll keys).Sized := by
  induction keys generalizing f with
  | nil => exact h
  | cons k keys ih => exact ih (h.add k)

theorem Sized.mightContain_addAll (h : f.Sized) {keys : List Bytes} (hk : key ∈ keys) :
    (f.addAll keys).mightContain key = true := by
  induction keys generalizing f with
  | nil => simp at hk
  | cons k keys ih =>
    rcases mem_cons.mp hk with rfl | hk
    · exact mightContain_addAll_of keys (h.mightContain_add key)
    · exact ih (h.add k) hk

lemma toInt_emod {n : ℤ} (h : 0≤n ∧ n<2^31) : toInt ((n % 2^32).toNat % 2^32) = n := by
  have hcast : (((n % 2^32).toNat % 2^32 : ℕ) : ℤ) = n := by omega
  have hbmod : n.bmod (2^32) = n := by
    refine Int.bmod_eq_of_le ?_ ?_
    · omega
    · omega
  exact (congrArg (fun m : ℤ => m.bmod (2^32)) hcast).trans hbmod

/-- What is left of the bits when the file ends behind `p` bytes. -/
def cut (f : BloomFilter) (p : ℕ) : BloomFilter :=
  { f with bits := f.bits.take (p-16) ++ replicate (f.bits.length-(p-16)) 0 }

lemma length_persist (f : BloomFilter) : f.persist.length = 16+f.bits.length := by
  simp only [persist,length_append,length_encodeFixed32,length_encodeFixed64]

/-- The header is read as it was written; the bits behind the end of the file are zero. -/
theorem Sized.load_take (h : f.Sized) (stack : Bytes) (hstack : stack.length = 16) {p : ℕ} (hp : 16≤p) :
    load stack (f.persist.take p) = f.cut p := by
  have hbytes := h.bytes
  have hlength := f.length_persist
  have hheader : (f.persist.take p).take 16 = encodeFixed32 (f.numHashes % 2^32).toNat ++
      (encodeFixed32 (f.bitsPerKey % 2^32).toNat ++ (encodeFixed64 f.bits.length ++ [])) := by
    rw [take_take,min_eq_left hp,persist,take_left' (by simp)]
    simp
  have hrest : (f.persist.take p).drop 16 = f.bits.take (p-16) := by
    rw [drop_take,persist,drop_left' (by simp)]
  have hfull : stack.drop (f.persist.take p).length = [] := by
    apply drop_eq_nil_of_le
    rw [length_take]
    omega
  have h₄ : ((f.persist.take p).take 16).drop 4 = encodeFixed32 (f.bitsPerKey % 2^32).toNat ++
      (encodeFixed64 f.bits.length ++ []) := by
    rw [hheader,drop_left' (length_encodeFixed32 _)]
  have h₈ : ((f.persist.take p).take 16).drop 8 = encodeFixed64 f.bits.length ++ [] := by
    rw [show 8 = 4+4 from rfl,← drop_drop,h₄,drop_left' (length_encodeFixed32 _)]
  have hsize : decodeFixed64 (((f.persist.take p).take 16).drop 8) = f.bits.length := by
    rw [h₈,decodeFixed64_encode,Nat.mod_eq_of_lt (by omega)]
  have hper : toInt (decodeFixed32 (((f.persist.take p).take 16).drop 4)) = f.bitsPerKey := by
    rw [h₄,decodeFixed32_encode,toInt_emod h.perKey]
  have hnum : toInt (decodeFixed32 ((f.persist.take p).take 16)) = f.numHashes := by
    rw [hheader,decodeFixed32_encode,toInt_emod h.hashes]
  have hshort : (f.bits.take (p-16)).take f.bits.length = f.bits.take (p-16) :=
    take_of_length_le (length_take_le' _ _)
  have hzeros : f.bits.length-(f.bits.take (p-16)).length = f.bits.length-(p-16) := by
    rw [length_take]
    omega
  simp only [load,hfull,append_nil,hsize,hper,hnum,hrest,hshort,hzeros,cut]

/-- A complete file is loaded as the filter it was written from. -/
theorem Sized.load_persist (h : f.Sized) (stack : Bytes) (hstack : stack.length = 16) :
    load stack f.persist = f := by
  have hlength := f.length_persist
  have hload := h.load_take stack hstack (p := f.persist.length) (by omega)
  rwa [take_length,cut,take_of_length_le (by omega),Nat.sub_eq_zero_of_le (by omega),replicate_zero,
    append_nil] at hload

/-- A key that was added is found, in memory and in the filter loaded from the file. The constructor keeps the number
of hashes between 1 and 30, and that of the bits of a key positive. -/
theorem mightContain_of_added {keys : List Bytes} (hhashes : 1≤f.numHashes ∧ f.numHashes≤30)
    (hperKey : 1≤f.bitsPerKey ∧ f.bitsPerKey<2^31) (hbytes : 0<f.bits.length ∧ f.bits.length<2^29)
    {stack : Bytes} (hstack : stack.length = 16) (hk : key ∈ keys) : (f.addAll keys).mightContain key = true ∧
      (load stack (f.addAll keys).persist).mightContain key = true := by
  have hsized : f.Sized := by
    refine ⟨?_,?_,hbytes⟩
    · omega
    · omega
  have hfound := hsized.mightContain_addAll hk
  exact ⟨hfound,by rwa [(hsized.addAll keys).load_persist stack hstack]⟩

theorem mightContain_of_added_one_byte : (addAll ⟨3,4,[0]⟩ [[1],[2]]).mightContain [1] = true ∧
    (load (replicate 16 0) (addAll ⟨3,4,[0]⟩ [[1],[2]]).persist).mightContain [1] = true :=
  mightContain_of_added (by decide) (by decide) (by decide) (by decide) (by decide)

end BloomFilter
end TitanKV.Minikv
