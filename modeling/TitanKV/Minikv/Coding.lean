import TitanKV.Library.LittleEndian

/-! Fixed-width and variable-length integers as they are laid out in every file of the
store. Lengths are natural numbers; a cast to `uint32_t` is the truncation to four bytes. -/
namespace TitanKV.Minikv
open LittleEndian List UInt8

abbrev Bytes := List UInt8

lemma compare_cons (a b : UInt8) (x y : Bytes) : compare (a::x) (b::y) = (compare a b).then (compare x y) :=
  List.compareLex_cons_cons

def encodeFixed32 (val : ℕ) : Bytes := bytes 4 val
def encodeFixed64 (val : ℕ) : Bytes := bytes 8 val
def decodeFixed32 (buf : Bytes) : ℕ := value (buf.take 4)
def decodeFixed64 (buf : Bytes) : ℕ := value (buf.take 8)

variable (val : ℕ)

@[simp] theorem length_encodeFixed32 : (encodeFixed32 val).length = 4 := length_bytes 4 val
@[simp] theorem length_encodeFixed64 (val : ℕ) : (encodeFixed64 val).length = 8 := length_bytes 8 val

lemma decodeFixed32_lt (buf : Bytes) : decodeFixed32 buf < 2^32 := value_take_lt buf 4

lemma decodeFixed64_lt (buf : Bytes) : decodeFixed64 buf < 2^64 := value_take_lt buf 8

@[simp] theorem decodeFixed32_encode (rest : Bytes) :
    decodeFixed32 (encodeFixed32 val ++ rest) = val % 2^32 := by
  unfold decodeFixed32
  rw [take_left' (length_encodeFixed32 val),encodeFixed32,value_bytes]
  norm_num

@[simp] theorem decodeFixed64_encode (rest : Bytes) :
    decodeFixed64 (encodeFixed64 val ++ rest) = val % 2^64 := by
  unfold decodeFixed64
  rw [take_left' (length_encodeFixed64 val),encodeFixed64,value_bytes]
  norm_num

lemma eq_encodeFixed32_append {buf : Bytes} (h : 4≤buf.length) :
    buf = encodeFixed32 (decodeFixed32 buf) ++ buf.drop 4 := by
  have hword : buf.take 4 = encodeFixed32 (decodeFixed32 buf) := by
    apply eq_of_value_eq
    · rw [length_encodeFixed32,length_take,min_eq_left h]
    · rw [encodeFixed32,value_bytes]
      exact (Nat.mod_eq_of_lt (decodeFixed32_lt buf)).symm
  rw [← hword,take_append_drop]

/-- Seven bits a byte, least significant group first; the high bit marks a continuation.
A 32-bit value shifts to zero within five groups. -/
def encodeGroups : ℕ → ℕ → Bytes
  | 0,val => [ofNat val]
  | k+1,val =>
    if 0x80≤val then ofNat (val ||| 0x80) :: encodeGroups k (val >>> 7) else [ofNat val]

def encodeVariant32 (val : ℕ) : Bytes := encodeGroups 4 (val % 2^32)

/-- The decoding loop: `shift` and `val` are its locals, the result is the value and the
number of bytes consumed. A group at shift 28 loses its high bits to `uint32_t`. -/
def decodeGroups : ℕ → ℕ → ℕ → Bytes → Option (ℕ × ℕ)
  | _,_,_,[] => none
  | shift,val,consumed,c::p =>
    if 32 ≤ shift then none
    else
      let val' := val ||| (((c &&& 0x7F).toNat <<< shift) % 2^32)
      if c &&& 0x80 = 0 then some (val',consumed+1) else decodeGroups (shift+7) val' (consumed+1) p

/-- The bytes given are those between `p` and `limit`. -/
def decodeVariant32 (p : Bytes) : Option (ℕ × ℕ) := decodeGroups 0 0 0 p

lemma low_group : ((UInt8.ofNat val) &&& 0x7F).toNat = val % 128 := by
  rw [UInt8.toNat_and]
  have h : (0x7F : UInt8).toNat = 2^7-1 := rfl
  rw [h,Nat.and_two_pow_sub_one_eq_mod,toNat_ofNat']
  omega

lemma low_group_marked : ((ofNat (val ||| 0x80)) &&& 0x7F).toNat = val % 128 := by
  rw [low_group]
  have h : (128 : ℕ) = 2^7 := rfl
  rw [h,Nat.or_mod_two_pow]
  simp

lemma last_group {val : ℕ} (h : val<128) : (ofNat val) &&& 0x80 = 0 := by
  have hall : ∀ i : Fin 128, (ofNat i.val) &&& 0x80 = 0 := by decide
  exact hall ⟨val,h⟩

lemma marked_group : (ofNat (val ||| 0x80)) &&& 0x80 ≠ 0 := by
  intro h
  have hbit := congrArg (fun c : UInt8 => c.toNat.testBit 7) h
  have h7 : Nat.testBit 128 7 = true := by decide
  simp [Nat.testBit_or,h7] at hbit

/-- Groups occupy disjoint bits, so the loop's `|=` adds. -/
lemma or_group {acc group shift : ℕ} (hacc : acc<2^shift) (hfit : group*2^shift+acc<2^32) :
    acc ||| ((group <<< shift) % 2^32) = group*2^shift+acc := by
  rw [Nat.shiftLeft_eq,Nat.mod_eq_of_lt (by omega),Nat.or_comm,Nat.mul_comm,
    ← Nat.two_pow_add_eq_or_of_lt hacc]

lemma decodeGroups_last {val shift acc : ℕ} (consumed : ℕ) (rest : Bytes) (hval : val<128)
    (hacc : acc<2^shift) (hfit : val*2^shift+acc<2^32) (hshift : shift<32) :
    decodeGroups shift acc consumed (ofNat val::rest) = some (val*2^shift+acc,consumed+1) := by
  rw [decodeGroups,if_neg (by omega)]
  simp only [low_group,Nat.mod_eq_of_lt hval,or_group hacc hfit,last_group hval,if_true]

lemma decodeGroups_encodeGroups (k val shift acc consumed : ℕ) (rest : Bytes)
    (hk : val<2^(7*(k+1))) (hacc : acc<2^shift) (hfit : val*2^shift+acc<2^32) (hshift : shift+7*k<32) :
    decodeGroups shift acc consumed (encodeGroups k val ++ rest) =
      some (val*2^shift+acc,consumed+(encodeGroups k val).length) := by
  induction k generalizing val shift acc consumed with
  | zero => exact decodeGroups_last consumed rest (by simpa using hk) hacc hfit (by omega)
  | succ k ih =>
    rw [encodeGroups]
    split
    · have hsplit : val*2^shift = val/128*2^(shift+7) + val%128*2^shift := by
        rw [pow_add]
        nlinarith [Nat.div_add_mod val 128]
      have hsmall : val%128*2^shift+acc<2^(shift+7) := by
        have hg : val%128<128 := Nat.mod_lt _ (by norm_num)
        rw [pow_add]
        nlinarith
      have hdiv : val/128<2^(7*(k+1)) := by
        rw [Nat.div_lt_iff_lt_mul (by norm_num)]
        calc val<2^(7*(k+1+1)) := hk
          _ = 2^(7*(k+1))*2^7 := by rw [show 7*(k+1+1)=7*(k+1)+7 by ring,pow_add]
          _ = 2^(7*(k+1))*128 := by norm_num
      rw [cons_append,decodeGroups,if_neg (by omega)]
      simp only [low_group_marked,marked_group,if_false]
      have hshr : val >>> 7 = val/128 := Nat.shiftRight_eq_div_pow val 7
      rw [or_group hacc (by omega),hshr]
      rw [ih (val/128) (shift+7) _ _ hdiv hsmall (by omega) (by omega)]
      simp only [length_cons,Option.some.injEq,Prod.mk.injEq]
      constructor <;> omega
    · exact decodeGroups_last consumed rest (by omega) hacc hfit (by omega)

/-- A varint is read back from the front of any buffer, with its own length consumed. -/
theorem decodeVariant32_encode {val : ℕ} (h : val<2^32) (rest : Bytes) :
    decodeVariant32 (encodeVariant32 val ++ rest) = some (val,(encodeVariant32 val).length) := by
  unfold decodeVariant32 encodeVariant32
  rw [Nat.mod_eq_of_lt h,decodeGroups_encodeGroups 4 val 0 0 0 rest (by omega) (by simp) (by omega) (by omega)]
  simp

lemma decodeGroups_consumed {shift val consumed v n : ℕ} {p : Bytes}
    (h : decodeGroups shift val consumed p = some (v,n)) : consumed<n ∧ n≤consumed+p.length := by
  induction p generalizing shift val consumed with
  | nil => cases h
  | cons c p ih =>
    rw [decodeGroups] at h
    split at h
    · cases h
    · split at h
      · simp only [Option.some.injEq,Prod.mk.injEq] at h
        rw [← h.2,length_cons]
        omega
      · have := ih h
        rw [length_cons]
        omega

lemma decodeVariant32_consumed {p : Bytes} {v n : ℕ} (h : decodeVariant32 p = some (v,n)) :
    0<n ∧ n≤p.length := by
  have := decodeGroups_consumed h
  omega

lemma length_encodeGroups_le (k val : ℕ) : (encodeGroups k val).length≤k+1 := by
  induction k generalizing val with
  | zero => simp [encodeGroups]
  | succ k ih =>
    rw [encodeGroups]
    split
    · have := ih (val >>> 7)
      rw [length_cons]
      omega
    · simp

lemma length_encodeVariant32_le : (encodeVariant32 val).length≤5 :=
  length_encodeGroups_le 4 _

lemma encodeGroups_ne_nil (k val : ℕ) : encodeGroups k val ≠ [] := by
  cases k with
  | zero => simp [encodeGroups]
  | succ k => rw [encodeGroups]; split <;> simp

lemma length_encodeVariant32_pos : 0<(encodeVariant32 val).length :=
  length_pos_iff.mpr (encodeGroups_ne_nil 4 _)

lemma decodeGroups_of_marked {p : Bytes} (h : ∀ c ∈ p, c &&& 0x80 ≠ 0) (shift val consumed : ℕ) :
    decodeGroups shift val consumed p = none := by
  induction p generalizing shift val consumed with
  | nil => rfl
  | cons c p ih =>
    obtain ⟨hc,hp⟩ := forall_mem_cons.mp h
    rw [decodeGroups,if_neg hc]
    split
    · rfl
    · exact ih hp _ _ _

lemma marked_of_mem_dropLast (k val : ℕ) : ∀ c ∈ (encodeGroups k val).dropLast, c &&& 0x80 ≠ 0 := by
  induction k generalizing val with
  | zero => simp [encodeGroups]
  | succ k ih =>
    rw [encodeGroups]
    split
    · rw [dropLast_cons_of_ne_nil (encodeGroups_ne_nil k _)]
      exact forall_mem_cons.mpr ⟨marked_group val,ih _⟩
    · simp

/-- A value is read with its own bytes whatever follows, and not without all of them; bytes are made up of the
encodings of one list of values only. -/
structure SelfDelimiting (encode : UInt32 → Bytes) (decode : Bytes → Option (ℕ × ℕ)) : Prop where
  whole : ∀ v rest, decode (encode v ++ rest) = some (v.toNat,(encode v).length)
  cut : ∀ v p, p <+: encode v → p ≠ encode v → decode p = none
  unique : ∀ vs ws : List UInt32, vs.flatMap encode = ws.flatMap encode → vs = ws

theorem selfDelimiting_variant32 : SelfDelimiting (fun v => encodeVariant32 v.toNat) decodeVariant32 := by
  have hwhole (v : UInt32) (rest : Bytes) := decodeVariant32_encode v.toNat_lt rest
  refine ⟨hwhole,?_,?_⟩
  · rintro v p hp hne
    have hproper : p <+: (encodeVariant32 v.toNat).dropLast := by
      obtain ⟨rest,hrest⟩ := hp
      have hpos : rest ≠ [] := by
        rintro rfl
        exact hne (by rw [← hrest,append_nil])
      rw [← hrest,dropLast_append_of_ne_nil hpos]
      exact prefix_append _ _
    exact decodeGroups_of_marked (fun c hc => marked_of_mem_dropLast 4 _ c (hproper.subset hc)) _ _ _
  · intro vs
    induction vs with
    | nil =>
      rintro (_ | ⟨w,ws⟩) h
      · rfl
      · exact absurd (append_eq_nil_iff.mp h.symm).1 (encodeGroups_ne_nil 4 _)
    | cons v vs ih =>
      rintro (_ | ⟨w,ws⟩) h
      · exact absurd (append_eq_nil_iff.mp h).1 (encodeGroups_ne_nil 4 _)
      · rw [flatMap_cons,flatMap_cons] at h
        have hv := hwhole v (vs.flatMap fun v => encodeVariant32 v.toNat)
        rw [h,hwhole w,Option.some.injEq,Prod.mk.injEq,UInt32.toNat_inj] at hv
        obtain ⟨rfl,-⟩ := hv
        rw [ih ws (append_cancel_left h)]

end TitanKV.Minikv
