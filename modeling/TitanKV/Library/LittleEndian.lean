import Mathlib.Tactic

/-! Little-endian byte words of a fixed width and the numbers they stand for. -/
namespace TitanKV.LittleEndian

/-- The `k` low-order bytes of `n`, least significant first. -/
def bytes : ℕ → ℕ → List UInt8
  | 0,_ => []
  | k+1,n => UInt8.ofNat n :: bytes k (n/256)

def value : List UInt8 → ℕ
  | [] => 0
  | b::bs => b.toNat + 256*value bs

@[simp] theorem value_nil : value [] = 0 := rfl
@[simp] theorem value_cons (b : UInt8) (bs : List UInt8) :
    value (b::bs) = b.toNat + 256*value bs := rfl

@[simp] theorem length_bytes (k n : ℕ) : (bytes k n).length = k := by
  induction k generalizing n with
  | zero => rfl
  | succ k ih => simp [bytes,ih]

@[simp] theorem value_bytes (k n : ℕ) : value (bytes k n) = n % 256^k := by
  induction k generalizing n with
  | zero => simp [bytes,Nat.mod_one]
  | succ k ih =>
    have hb : (UInt8.ofNat n).toNat = n % 256 := by simp
    rw [bytes,value_cons,ih,hb,pow_succ',Nat.mod_mul]

lemma value_append (bs cs : List UInt8) : value (bs++cs) = value bs + 256^bs.length*value cs := by
  induction bs with
  | nil => simp
  | cons b bs ih =>
    rw [List.cons_append,value_cons,value_cons,ih,List.length_cons,pow_succ]
    ring

lemma value_lt (bs : List UInt8) : value bs < 256^bs.length := by
  induction bs with
  | nil => simp
  | cons b bs ih =>
    have hb := b.toNat_lt
    rw [value_cons,List.length_cons,pow_succ]
    omega

lemma value_take_lt (bs : List UInt8) (k : ℕ) : value (bs.take k) < 256^k := by
  apply (value_lt _).trans_le
  apply Nat.pow_le_pow_right (by norm_num)
  exact List.length_take_le k bs

lemma eq_of_value_eq {bs cs : List UInt8} (hlen : bs.length = cs.length) (h : value bs = value cs) : bs = cs := by
  induction bs generalizing cs with
  | nil => exact (List.length_eq_zero_iff.mp hlen.symm).symm
  | cons b bs ih =>
    cases cs with
    | nil => cases hlen
    | cons c cs =>
      rw [value_cons,value_cons] at h
      have hb := b.toNat_lt
      have hc := c.toNat_lt
      have hhead : b = c := UInt8.toNat_inj.mp (by omega)
      rw [hhead,ih (Nat.succ.inj hlen) (by omega)]

end TitanKV.LittleEndian
