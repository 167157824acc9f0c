import TitanKV.Minikv.Coding

/-! Internal keys: a user key, the sequence number of the write and the kind of entry.
They are ordered by user key ascending, then by sequence number descending, so the newest
version of a user key comes first. -/
namespace TitanKV.Minikv

lemma ne_of_compare_lt {a b : Bytes} (h : compare a b = .lt) : a ≠ b := by
  rintro rfl
  rw [Std.ReflOrd.compare_self] at h
  cases h

inductive ValueType
  | none
  | value
  | deletion
  deriving DecidableEq, Repr

namespace ValueType

def code : ValueType → ℕ
  | none => 0
  | value => 1
  | deletion => 2

lemma code_injective : Function.Injective code := by
  intro a b h
  cases a <;> cases b <;> first | rfl | cases h

end ValueType

structure InternalKey where
  userKey : Bytes
  seq : ℕ
  type : ValueType
  deriving DecidableEq, Repr

namespace InternalKey

def compare (a b : InternalKey) : Ordering :=
  (Ord.compare a.userKey b.userKey).then
    ((Ord.compare b.seq a.seq).then (Ord.compare a.type.code b.type.code))

def isDeletion (k : InternalKey) : Bool := k.type = .deletion

abbrev Lt (a b : InternalKey) : Prop := a.compare b = .lt

instance : Std.TransCmp compare :=
  inferInstanceAs (Std.TransCmp (compareLex (compareOn userKey)
    (compareLex (fun a b => compareOn seq b a) (compareOn fun k => k.type.code))))

variable {a b : InternalKey}

theorem compare_eq_iff : a.compare b = .eq ↔ a = b := by
  constructor
  · intro h
    obtain ⟨hu,h⟩ := Ordering.then_eq_eq.mp h
    obtain ⟨hs,ht⟩ := Ordering.then_eq_eq.mp h
    have ht' := ValueType.code_injective (Std.LawfulEqOrd.eq_of_compare ht)
    cases a; cases b; simp_all
  · rintro rfl
    exact Std.ReflCmp.compare_self

lemma lt_irrefl (a : InternalKey) : ¬ a.Lt a := by
  intro h
  rw [Lt,compare_eq_iff.mpr rfl] at h
  contradiction

lemma lt_trans {a b c : InternalKey} (hab : a.Lt b) (hbc : b.Lt c) : a.Lt c :=
  Std.TransCmp.lt_trans hab hbc

lemma lt_of_not_lt (h : ¬ a.Lt b) (hne : a ≠ b) : b.Lt a := by
  cases hc : a.compare b with
  | lt => exact (h hc).elim
  | eq => exact (hne (compare_eq_iff.mp hc)).elim
  | gt => exact Std.OrientedCmp.lt_of_gt hc

/-- Within a user key the higher sequence number comes first. -/
theorem lt_of_seq_lt (hu : a.userKey = b.userKey) (hs : b.seq<a.seq) :
    a.Lt b := by
  have hc : Ord.compare b.seq a.seq = .lt := Nat.compare_eq_lt.mpr hs
  simp [Lt,compare,hu,hc]

lemma userKey_le (h : a.Lt b) : Ord.compare a.userKey b.userKey ≠ .gt := by
  intro hg
  simp [Lt,compare,hg] at h

lemma seq_le (h : a.Lt b) (hu : a.userKey = b.userKey) : b.seq≤a.seq := by
  by_contra hs
  have hc : Ord.compare b.seq a.seq = .gt := Nat.compare_eq_gt.mpr (by omega)
  simp [Lt,compare,hu,hc] at h

/-- `InternalKeyEncode`: the user key, then sequence number and type in eight bytes. -/
def encode (k : InternalKey) : Bytes := k.userKey ++ encodeFixed64 (k.seq <<< 8 ||| k.type.code)

end InternalKey

/-- `InternalKeyUserKey`; a key that is too short for a trailer has no user key. -/
def internalKeyUserKey (key : Bytes) : Bytes := if key.length<8 then [] else key.take (key.length-8)

@[simp] theorem internalKeyUserKey_encode (k : InternalKey) : internalKeyUserKey k.encode = k.userKey := by
  rw [internalKeyUserKey,InternalKey.encode]
  simp

def internalKeyTrailer (key : Bytes) : ℕ := decodeFixed64 (key.drop (key.length-8))

def internalKeySequence (key : Bytes) : ℕ := if key.length<8 then 0 else internalKeyTrailer key >>> 8

def internalKeyType (key : Bytes) : ℕ := if key.length<8 then ValueType.none.code else internalKeyTrailer key % 2^8

/-- `InternalKeyCompare`; keys without a trailer fall back to the order of their bytes. -/
def internalKeyCompare (a b : Bytes) : Ordering :=
  if a.length<8 ∨ b.length<8 then compare a b
  else
    (compare (internalKeyUserKey a) (internalKeyUserKey b)).then
      ((compare (internalKeyTrailer b >>> 8) (internalKeyTrailer a >>> 8)).then
        (compare (internalKeyTrailer a % 2^8) (internalKeyTrailer b % 2^8)))

section Trailer
variable {k l : InternalKey}

lemma code_lt (t : ValueType) : t.code<2^8 := by
  cases t <;> decide

/-- The shift must not lose bits of the sequence number. -/
lemma internalKeyTrailer_encode (h : k.seq<2^56) : internalKeyTrailer k.encode = k.seq*2^8+k.type.code := by
  have hcode := code_lt k.type
  have hpack : k.seq <<< 8 ||| k.type.code = k.seq*2^8+k.type.code := by
    rw [← Nat.shiftLeft_add_eq_or_of_lt hcode,Nat.shiftLeft_eq]
  have hdrop : k.encode.drop (k.encode.length-8) = encodeFixed64 (k.seq*2^8+k.type.code) ++ [] := by
    rw [InternalKey.encode,hpack,List.append_nil]
    exact List.drop_left' (by simp)
  rw [internalKeyTrailer,hdrop,decodeFixed64_encode,Nat.mod_eq_of_lt (by omega)]

lemma internalKeyType_encode (h : k.seq<2^56) : internalKeyType k.encode = k.type.code := by
  have hcode := code_lt k.type
  rw [internalKeyType,if_neg (by simp [InternalKey.encode]),internalKeyTrailer_encode h]
  omega

lemma internalKeySequence_encode (h : k.seq<2^56) : internalKeySequence k.encode = k.seq := by
  have hcode := code_lt k.type
  rw [internalKeySequence,if_neg (by simp [InternalKey.encode]),internalKeyTrailer_encode h]
  omega

/-- On encoded keys the bytes decide as the keys themselves do. -/
theorem internalKeyCompare_encode (hk : k.seq<2^56) (hl : l.seq<2^56) :
    internalKeyCompare k.encode l.encode = k.compare l := by
  have hck := code_lt k.type
  have hcl := code_lt l.type
  have hseq : ∀ {seq code : ℕ}, code<2^8 → (seq*2^8+code) >>> 8 = seq := by
    intro seq code hcode
    omega
  have hcode : ∀ {seq code : ℕ}, code<2^8 → (seq*2^8+code) % 2^8 = code := by
    intro seq code hcode
    omega
  rw [internalKeyCompare,if_neg (by simp [InternalKey.encode]),internalKeyTrailer_encode hk,
    internalKeyTrailer_encode hl,hseq hck,hseq hcl,hcode hck,hcode hcl,internalKeyUserKey_encode,
    internalKeyUserKey_encode]
  rfl

/-- The parts of a key are read back from its bytes, and the bytes are in the order of the keys. -/
theorem encode_faithful (hk : k.seq<2^56) (hl : l.seq<2^56) :
    internalKeyUserKey k.encode = k.userKey ∧ internalKeySequence k.encode = k.seq ∧
      internalKeyType k.encode = k.type.code ∧ internalKeyCompare k.encode l.encode = k.compare l :=
  ⟨internalKeyUserKey_encode k,internalKeySequence_encode hk,internalKeyType_encode hk,
    internalKeyCompare_encode hk hl⟩

/-- A user key whose last bytes look like a trailer behind a shorter one. -/
theorem encode_faithful_trailer :
    internalKeyUserKey (InternalKey.encode ⟨[97],7,.value⟩) = [97] ∧
      internalKeySequence (InternalKey.encode ⟨[97],7,.value⟩) = 7 ∧
      internalKeyType (InternalKey.encode ⟨[97],7,.value⟩) = 1 ∧
      internalKeyCompare (InternalKey.encode ⟨[97],7,.value⟩) (InternalKey.encode ⟨[97,1,7,0,0,0,0,0,0],7,.value⟩) =
        .lt :=
  encode_faithful (k := ⟨[97],7,.value⟩) (l := ⟨[97,1,7,0,0,0,0,0,0],7,.value⟩) (by decide) (by decide)

end Trailer
end TitanKV.Minikv
