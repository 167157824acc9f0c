import TitanKV.Library.Streaming

/-! Byte strings read as UTF-8. A string may hold any bytes; a byte that starts no code point is an item of its own,
and the replacement character takes its place where a writer insists on code points. -/
namespace TitanKV.Utf8
open Parsing List

abbrev encode (c : Char) : List UInt8 := String.utf8EncodeChar c

def replacement : Char := Char.ofNat 0xFFFD

def decodeRune (b : List UInt8) : Option Char := b.toByteArray.utf8DecodeChar? 0

def readRune (b : List UInt8) : Option (Option Char × List UInt8) :=
  if b = [] then none
  else
    match decodeRune b with
    | none => some (none,b.tail)
    | some c => some (some c,b.drop c.utf8Size)

def runes (b : List UInt8) : List (Option Char) := many readRune b

def toValid (b : List UInt8) : List UInt8 := (runes b).flatMap fun r => encode (r.getD replacement)

def Valid (b : List UInt8) : Prop := none ∉ runes b

instance (b : List UInt8) : Decidable (Valid b) := inferInstanceAs (Decidable (¬_))

section Runes
variable {x : UInt8} {b : List UInt8} {c : Char}

lemma length_encode_pos (c : Char) : 0<(encode c).length := by
  rw [String.length_utf8EncodeChar]
  exact c.utf8Size_pos

lemma encode_ne_nil (c : Char) : encode c ≠ [] := length_pos_iff.mp (length_encode_pos c)

@[simp] lemma decodeRune_encode_append (c : Char) (b : List UInt8) : decodeRune (encode c ++ b) = some c := by
  rw [decodeRune,toByteArray_append]
  exact ByteArray.utf8DecodeChar?_utf8EncodeChar_append

lemma exists_of_decodeRune (h : decodeRune b = some c) : ∃ rest, b = encode c ++ rest := by
  obtain ⟨l,hl⟩ := ByteArray.exists_of_utf8DecodeChar?_eq_some h
  have hlist : l = l.data.toList.toByteArray := by
    apply ByteArray.ext
    simp
  rw [hlist,← toByteArray_append,toByteArray_inj] at hl
  exact ⟨_,hl⟩

lemma readRune_consumes : Consumes readRune := by
  intro b r rest h
  have hpos (hne : b ≠ []) : 0<b.length := length_pos_iff.mpr hne
  unfold readRune at h
  split_ifs at h with hne
  split at h <;> cases h
  · have hlen := hpos hne
    rw [length_tail]
    omega
  · rename_i c _
    have hlen := hpos hne
    have hsize := c.utf8Size_pos
    rw [length_drop]
    omega

lemma readRune_cons_of_none (h : decodeRune (x::b) = none) : readRune (x::b) = some (none,b) := by simp [readRune,h]

lemma readRune_encode_append (c : Char) (b : List UInt8) : readRune (encode c ++ b) = some (some c,b) := by
  have hdrop : (encode c ++ b).drop c.utf8Size = b := by
    rw [← String.length_utf8EncodeChar,drop_left]
  simp [readRune,hdrop]

/-- Strings are taken apart code point by code point. -/
theorem rune_induction {P : List UInt8 → Prop} (nil : P [])
    (invalid : ∀ x b, decodeRune (x::b) = none → P b → P (x::b)) (rune : ∀ c b, P b → P (encode c ++ b))
    (b : List UInt8) : P b := by
  induction b using many_induction readRune_consumes with
  | stop b h =>
    have hnil : b = [] := by
      by_contra hne
      unfold readRune at h
      rw [if_neg hne] at h
      split at h <;> cases h
    exact hnil ▸ nil
  | item b r rest h ih =>
    cases hc : decodeRune b with
    | some c =>
      obtain ⟨rest',rfl⟩ := exists_of_decodeRune hc
      rw [readRune_encode_append] at h
      cases h
      exact rune c _ ih
    | none =>
      cases b with
      | nil => cases h
      | cons x b =>
        rw [readRune_cons_of_none hc] at h
        cases h
        exact invalid x _ hc ih

@[simp] lemma runes_nil : runes [] = [] := rfl

lemma runes_cons_of_none (h : decodeRune (x::b) = none) : runes (x::b) = none::runes b :=
  many_of_some readRune_consumes (readRune_cons_of_none h)

@[simp] lemma runes_encode_append (c : Char) (b : List UInt8) : runes (encode c ++ b) = some c::runes b :=
  many_of_some readRune_consumes (readRune_encode_append c b)

lemma runes_flatMap_append (cs : List Char) (b : List UInt8) :
    runes (cs.flatMap encode ++ b) = cs.map some ++ runes b := by
  induction cs with
  | nil => rfl
  | cons c cs ih => simp [ih]

lemma runes_toValid (b : List UInt8) : runes (toValid b) = (runes b).map fun r => some (r.getD replacement) := by
  have hall (rs : List (Option Char)) : runes (rs.flatMap fun r => encode (r.getD replacement)) = rs.map fun r =>
      some (r.getD replacement) := by
    induction rs with
    | nil => rfl
    | cons r rs ih => simp [ih]
  exact hall _

lemma valid_toValid (b : List UInt8) : Valid (toValid b) := by simp [Valid,runes_toValid]

lemma exists_of_valid (h : Valid b) : ∃ cs : List Char, b = cs.flatMap encode := by
  induction b using rune_induction with
  | nil => exact ⟨[],rfl⟩
  | invalid x b hx ih => simp [Valid,runes_cons_of_none hx] at h
  | rune c b ih =>
    obtain ⟨cs,rfl⟩ := ih (by simpa [Valid] using h)
    exact ⟨c::cs,by simp⟩

lemma toValid_of_valid (h : Valid b) : toValid b = b := by
  obtain ⟨cs,rfl⟩ := exists_of_valid h
  have hrunes := runes_flatMap_append cs []
  simp only [append_nil,runes_nil] at hrunes
  rw [toValid,hrunes,flatMap_map]
  rfl

lemma toValid_eq_self_iff : toValid b = b ↔ Valid b := ⟨fun h => h ▸ valid_toValid b,toValid_of_valid⟩

lemma length_le_toValid (b : List UInt8) : b.length≤(toValid b).length := by
  induction b using rune_induction with
  | nil => exact Nat.zero_le _
  | invalid x b hx ih =>
    have hpos := length_encode_pos replacement
    rw [toValid] at ih ⊢
    rw [runes_cons_of_none hx,flatMap_cons,length_append,length_cons,Option.getD_none]
    omega
  | rune c b ih =>
    rw [toValid] at ih ⊢
    rw [runes_encode_append,flatMap_cons,length_append,length_append,Option.getD_some]
    omega

lemma decodeRune_ff (b : List UInt8) : decodeRune (0xff::b) = none := by
  cases hc : decodeRune (0xff::b) with
  | none => rfl
  | some c =>
    obtain ⟨rest,hrest⟩ := exists_of_decodeRune hc
    obtain ⟨x,tail,hx⟩ := exists_cons_of_ne_nil (encode_ne_nil c)
    have hfirst := @UInt8.isUTF8FirstByte_getElem_zero_utf8EncodeChar c
    rw [hx,cons_append,List.cons.injEq] at hrest
    simp only [show String.utf8EncodeChar c = x::tail from hx,getElem_cons_zero,← hrest.1] at hfirst
    exact absurd hfirst (by decide)

/-- A valid string is what another one is made into exactly if it has a replacement character. -/
theorem exists_toValid_eq_iff (h : Valid b) : (∃ b', b' ≠ b ∧ toValid b' = b) ↔ some replacement ∈ runes b := by
  constructor
  · rintro ⟨b',hne,rfl⟩
    have hinvalid : none ∈ runes b' := by
      by_contra hvalid
      exact hne (toValid_of_valid hvalid).symm
    rw [runes_toValid]
    exact mem_map.mpr ⟨none,hinvalid,rfl⟩
  · obtain ⟨cs,rfl⟩ := exists_of_valid h
    intro hmem
    have hrunes := runes_flatMap_append cs []
    simp only [append_nil,runes_nil] at hrunes
    rw [hrunes] at hmem
    obtain ⟨l,r,rfl⟩ := append_of_mem (mem_map_of_injective (Option.some_injective _) |>.mp hmem)
    have hother : runes (l.flatMap encode ++ 0xff::r.flatMap encode) = l.map some ++ none::r.map some := by
      have hr := runes_flatMap_append r []
      simp only [append_nil,runes_nil] at hr
      rw [runes_flatMap_append,runes_cons_of_none (decodeRune_ff _),hr]
    refine ⟨l.flatMap encode ++ 0xff::r.flatMap encode,fun heq => ?_,?_⟩
    · rw [heq] at hother
      exact h (hother ▸ by simp)
    · simp [toValid,hother,flatMap_map]

end Runes
end TitanKV.Utf8
