import TitanKV.Library.Utf8

/-! JSON texts of objects whose members are strings. The writer escapes what a web page must not see and puts the
replacement character for bytes that are no UTF-8; the reader accepts what the writer writes and every other way to
escape a character. -/
namespace TitanKV.Json
open Parsing Utf8 List Option

def hexDigit (n : ℕ) : UInt8 := if n<10 then UInt8.ofNat (48+n) else UInt8.ofNat (87+n)

def hexValue (b : UInt8) : Option ℕ :=
  if 48≤b ∧ b≤57 then some (b.toNat-48)
  else if 97≤b ∧ b≤102 then some (b.toNat-87)
  else if 65≤b ∧ b≤70 then some (b.toNat-55)
  else none

def unicodeEscape (n : ℕ) : List UInt8 :=
  [92,117,hexDigit (n/4096),hexDigit (n/256%16),hexDigit (n/16%16),hexDigit (n%16)]

/-- The characters with a short escape and its letter. -/
def shortEscapes : List (ℕ × UInt8) := [(34,34),(92,92),(8,98),(12,102),(10,110),(13,114),(9,116)]

/-- A reader also knows the escaped slash. -/
def letters : List (ℕ × UInt8) := shortEscapes++[(47,47)]

def escapeChar (c : Char) : List UInt8 :=
  match shortEscapes.find? (·.1 = c.toNat) with
  | some e => [92,e.2]
  | none => if c.toNat<32 ∨ c.toNat ∈ [60,62,38,0x2028,0x2029] then unicodeEscape c.toNat else encode c

def escape : Option Char → List UInt8
  | none => unicodeEscape 0xFFFD
  | some c => escapeChar c

def quote (s : List UInt8) : List UInt8 := 34::((runes s).flatMap escape ++ [34])

def readHex : List UInt8 → Option (ℕ × List UInt8)
  | a::b::c::d::rest =>
    (hexValue a).bind fun a => (hexValue b).bind fun b => (hexValue c).bind fun c => (hexValue d).map fun d =>
      (a*4096+b*256+c*16+d,rest)
  | _ => none

def surrogate (n : ℕ) : Bool := 0xD800≤n ∧ n<0xE000

/-- The second half of a pair of surrogates; half a pair counts as a replacement character. -/
def readSurrogate (n : ℕ) (rest : List UInt8) : Char × List UInt8 :=
  if [92,117] <+: rest then
    match readHex (rest.drop 2) with
    | none => (replacement,rest)
    | some (m,rest') =>
      if n<0xDC00 ∧ 0xDC00 ≤ m ∧ m<0xE000 then (Char.ofNat (0x10000+(n-0xD800)*0x400+(m-0xDC00)),rest')
        else (replacement,rest)
  else (replacement,rest)

def readEscape : List UInt8 → Option (Char × List UInt8)
  | [] => none
  | x::rest =>
    if x = 117 then (readHex rest).map fun r => if surrogate r.1 then readSurrogate r.1 r.2 else (Char.ofNat r.1,r.2)
    else (letters.find? (·.2 = x)).map fun e => (Char.ofNat e.1,rest)

def readChar : List UInt8 → Option (Char × List UInt8)
  | [] => none
  | x::rest =>
    if x = 34 then none
    else if x = 92 then readEscape rest
    else if x<32 then none
    else (readRune (x::rest)).map fun r => (r.1.getD replacement,r.2)

def unquote (b : List UInt8) : Option (List UInt8 × List UInt8) :=
  if b.head? = some 34 ∧ (remainder readChar b.tail).head? = some 34 then
    some ((many readChar b.tail).flatMap encode,(remainder readChar b.tail).tail)
  else none

section Strings
variable {c : Char} {b rest : List UInt8}

lemma length_of_readHex {n : ℕ} (h : readHex b = some (n,rest)) : rest.length<b.length := by
  match b,h with
  | x::y::z::w::b,h =>
    simp only [readHex,bind_eq_some_iff,map_eq_some_iff,Prod.mk.injEq] at h
    obtain ⟨_,-,_,-,_,-,_,-,-,rfl⟩ := h
    simp only [length_cons]
    omega

lemma length_readSurrogate (n : ℕ) (b : List UInt8) : (readSurrogate n b).2.length≤b.length := by
  unfold readSurrogate
  split_ifs
  · split
    · exact le_rfl
    · rename_i m rest h
      have hlt := length_of_readHex h
      rw [length_drop] at hlt
      split_ifs
      · dsimp only
        omega
      · exact le_rfl
  · exact le_rfl

lemma length_of_readEscape (h : readEscape b = some (c,rest)) : rest.length<b.length := by
  cases b with
  | nil => cases h
  | cons x b =>
    simp only [readEscape] at h
    split_ifs at h
    · obtain ⟨⟨n,b'⟩,hhex,hr⟩ := map_eq_some_iff.mp h
      have hlt := length_of_readHex hhex
      have hle := length_readSurrogate n b'
      split_ifs at hr
      · rw [hr] at hle
        simp only [length_cons] at hle ⊢
        omega
      · cases hr
        simp only [length_cons]
        omega
    · obtain ⟨e,-,hr⟩ := map_eq_some_iff.mp h
      cases hr
      simp

lemma readChar_consumes : Consumes readChar := by
  intro b c rest h
  cases b with
  | nil => cases h
  | cons x b =>
    simp only [readChar] at h
    split_ifs at h
    · have hlt := length_of_readEscape h
      rw [length_cons]
      omega
    · obtain ⟨⟨r,b'⟩,hr,heq⟩ := map_eq_some_iff.mp h
      cases heq
      exact readRune_consumes _ _ _ hr

lemma hexValue_hexDigit : ∀ d < 16, hexValue (hexDigit d) = some d := by decide

lemma readHex_hexDigits {n : ℕ} (hn : n<65536) (rest : List UInt8) :
    readHex (hexDigit (n/4096)::hexDigit (n/256%16)::hexDigit (n/16%16)::hexDigit (n%16)::rest) = some (n,rest) := by
  have hsum : n/4096*4096+n/256%16*256+n/16%16*16+n%16 = n := by omega
  simp only [readHex,hexValue_hexDigit _ (show n/4096 < 16 by omega),
    hexValue_hexDigit _ (show n/256%16 < 16 by omega),
    hexValue_hexDigit _ (show n/16%16 < 16 by omega),hexValue_hexDigit _ (show n%16 < 16 by omega),bind_some,
      map_some,hsum]

lemma readChar_unicodeEscape {n : ℕ} (hn : n<65536) (hsurrogate : surrogate n = false) (rest : List UInt8) :
    readChar (unicodeEscape n ++ rest) = some (Char.ofNat n,rest) := by
  have hchar : readChar (unicodeEscape n ++ rest) =
      readEscape (117::hexDigit (n/4096)::hexDigit (n/256%16)::hexDigit (n/16%16)::hexDigit (n%16)::rest) := rfl
  rw [hchar,readEscape,if_pos rfl,readHex_hexDigits hn]
  simp [hsurrogate]

lemma readChar_shortEscape : ∀ e ∈ shortEscapes, ∀ rest, readChar (92::e.2::rest) = some (Char.ofNat e.1,rest) := by
  have hall : ∀ e ∈ shortEscapes, e.2 ≠ 117 ∧ letters.find? (·.2 = e.2) = some e := by decide
  intro e he rest
  obtain ⟨hne,hfind⟩ := hall e he
  have hchar : readChar (92::e.2::rest) = readEscape (e.2::rest) := rfl
  rw [hchar,readEscape,if_neg hne,hfind]
  rfl

lemma le_or (a k : UInt8) : k.toNat≤(a ||| k).toNat := by
  exact Nat.right_le_or

/-- A code point starts with a byte of the upper half unless it is that byte. -/
lemma encode_head (c : Char) : ∃ x tail, encode c = x::tail ∧ (x.toNat<128 → x.toNat = c.toNat) := by
  have hlarge (a k : UInt8) (hk : 128≤k.toNat) : (a ||| k).toNat<128 → (a ||| k).toNat = c.toNat := fun hlt =>
    absurd (hk.trans (le_or a k)) (Nat.not_le.mpr hlt)
  obtain h | h | h | h := c.utf8Size_eq
  · refine ⟨_,_,String.utf8EncodeChar_eq_singleton h,fun _ => ?_⟩
    have hval := UInt32.le_iff_toNat_le.mp (Char.utf8Size_eq_one_iff.mp h)
    rw [UInt32.toNat_toUInt8,Nat.mod_eq_of_lt]
    · rfl
    · exact lt_of_le_of_lt hval (by decide)
  · exact ⟨_,_,String.utf8EncodeChar_eq_cons_cons h,hlarge _ 192 (by decide)⟩
  · exact ⟨_,_,String.utf8EncodeChar_eq_cons_cons_cons h,hlarge _ 224 (by decide)⟩
  · exact ⟨_,_,String.utf8EncodeChar_eq_cons_cons_cons_cons h,hlarge _ 240 (by decide)⟩

lemma surrogate_toNat (c : Char) : surrogate c.toNat = false := by
  have hvalid := c.valid
  simp only [surrogate,decide_eq_false_iff_not,not_and,not_lt]
  intro h
  obtain hlt | hlt := hvalid
  · exact absurd (lt_of_le_of_lt h hlt) (by decide)
  · exact hlt.1

lemma readChar_escapeChar (c : Char) (rest : List UInt8) : readChar (escapeChar c ++ rest) = some (c,rest) := by
  unfold escapeChar
  split
  · rename_i e he
    have hc : e.1 = c.toNat := by simpa using find?_some he
    have hread := readChar_shortEscape e (mem_of_find?_eq_some he) rest
    rw [hc,Char.ofNat_toNat] at hread
    exact hread
  · rename_i hnone
    split_ifs with hescape
    · have hlt : c.toNat<65536 := by
        simp only [mem_cons,not_mem_nil,or_false] at hescape
        omega
      rw [readChar_unicodeEscape hlt (surrogate_toNat c),Char.ofNat_toNat]
    · obtain ⟨x,tail,hx,hsmall⟩ := encode_head c
      have hfind := List.find?_eq_none.mp hnone
      have hquote : x ≠ 34 := by
        rintro rfl
        exact hfind (34,34) (by decide) (by simpa using hsmall (by decide))
      have hslash : x ≠ 92 := by
        rintro rfl
        exact hfind (92,92) (by decide) (by simpa using hsmall (by decide))
      have hcontrol : ¬x<32 := by
        intro hlt
        have hnat : x.toNat<32 := UInt8.lt_iff_toNat_lt.mp hlt
        exact hescape (Or.inl (by rwa [← hsmall (by omega)]))
      have hrune := readRune_encode_append c rest
      rw [hx,cons_append] at hrune ⊢
      simp [readChar,hquote,hslash,hcontrol,hrune]

lemma readChar_escape (r : Option Char) (rest : List UInt8) :
    readChar (escape r ++ rest) = some (r.getD replacement,rest) := by
  cases r with
  | none => exact readChar_unicodeEscape (by decide) (by decide) rest
  | some c => exact readChar_escapeChar c rest

/-- A string is read back as what the replacement character makes of it. -/
theorem unquote_quote_append (s rest : List UInt8) : unquote (quote s ++ rest) = some (toValid s,rest) := by
  have hstop : readChar (34::rest) = none := rfl
  have htail : (quote s ++ rest).tail = (runes s).flatMap escape ++ 34::rest := by simp [quote]
  have hmany : many readChar (quote s ++ rest).tail = (runes s).map fun r => r.getD replacement := by
    rw [htail,many_flatMap_map readChar_consumes escape _ _ _ fun r _ rest => readChar_escape r rest,
      many_of_none hstop,append_nil]
  have hrest : remainder readChar (quote s ++ rest).tail = 34::rest := by
    rw [htail,remainder_flatMap readChar_consumes escape _ _ _ fun r _ rest => readChar_escape r rest,
      remainder_of_none hstop]
  unfold unquote
  rw [hmany,hrest,if_pos ⟨rfl,rfl⟩,flatMap_map,tail_cons]
  rfl

lemma length_encode_le_escapeChar (c : Char) : (encode c).length≤(escapeChar c).length := by
  have hsize : (encode c).length≤4 := by
    rw [String.length_utf8EncodeChar]
    exact c.utf8Size_le_four
  unfold escapeChar
  split
  · rename_i e he
    have hsmall : ∀ e ∈ shortEscapes, e.1≤127 := by decide
    have hc : e.1 = c.toNat := by simpa using find?_some he
    have hle : c.toNat≤127 := hc ▸ hsmall e (mem_of_find?_eq_some he)
    rw [String.length_utf8EncodeChar,Char.utf8Size_eq_one_iff.mpr (UInt32.le_iff_toNat_le.mpr hle)]
    exact (by decide : 1≤2)
  · split_ifs
    · exact hsize.trans (by decide : 4≤6)
    · exact le_rfl

lemma length_lt_quote (s : List UInt8) : s.length<(quote s).length := by
  have hescape : s.length≤((runes s).flatMap escape).length := by
    induction s using rune_induction with
    | nil => exact Nat.zero_le _
    | invalid x s hx ih =>
      rw [runes_cons_of_none hx,flatMap_cons,length_append,length_cons]
      have hsix : (escape none).length = 6 := rfl
      omega
    | rune c s ih =>
      rw [runes_encode_append,flatMap_cons,length_append,length_append]
      have hle : (encode c).length≤(escape (some c)).length := length_encode_le_escapeChar c
      omega
  rw [quote,length_cons,length_append]
  omega

lemma valid_of_unquote {s : List UInt8} (h : unquote b = some (s,rest)) : Valid s := by
  simp only [unquote,ite_none_right_eq_some,Option.some.injEq,Prod.mk.injEq] at h
  rw [← h.2.1]
  have hrunes := runes_flatMap_append (many readChar b.tail) []
  simp only [append_nil,runes_nil] at hrunes
  simp [Valid,hrunes]

lemma length_of_unquote {s : List UInt8} (h : unquote b = some (s,rest)) : rest.length<b.length := by
  simp only [unquote,ite_none_right_eq_some,Option.some.injEq,Prod.mk.injEq] at h
  obtain ⟨⟨hhead,-⟩,-,rfl⟩ := h
  have hle := length_remainder_le readChar_consumes b.tail
  have hpos : 0<b.length := by
    cases b with
    | nil => cases hhead
    | cons x b => simp
  rw [length_tail] at hle ⊢
  omega

end Strings

abbrev Member := List UInt8 × List UInt8

def member (m : Member) : List UInt8 := quote m.1 ++ 58::quote m.2

def object : List Member → List UInt8
  | [] => [123,125]
  | m::ms => 123::(member m ++ (ms.flatMap fun m => 44::member m)++[125])

def readMember (b : List UInt8) : Option (Member × List UInt8) :=
  (unquote b).bind fun k => if k.2.head? = some 58 then (unquote k.2.tail).map fun v => ((k.1,v.1),v.2) else none

def readNext (b : List UInt8) : Option (Member × List UInt8) := if b.head? = some 44 then readMember b.tail else none

def readObject (b : List UInt8) : Option (List Member × List UInt8) :=
  if b.head? = some 123 then
    if b.tail.head? = some 125 then some ([],b.tail.tail)
    else
      (readMember b.tail).bind fun m =>
        if (remainder readNext m.2).head? = some 125 then
          some (m.1::many readNext m.2,(remainder readNext m.2).tail)
        else none
  else none

def Member.toValid (m : Member) : Member := (Utf8.toValid m.1,Utf8.toValid m.2)

section Objects
variable {m : Member} {b rest : List UInt8}

lemma length_of_readMember (h : readMember b = some (m,rest)) : rest.length<b.length := by
  obtain ⟨⟨k,b'⟩,hk,h⟩ := bind_eq_some_iff.mp h
  simp only [ite_none_right_eq_some,map_eq_some_iff,Prod.mk.injEq] at h
  obtain ⟨-,⟨v,rest'⟩,hv,-,rfl⟩ := h
  have hlt := length_of_unquote hk
  have hlt' := length_of_unquote hv
  rw [length_tail] at hlt'
  dsimp only at *
  omega

lemma readNext_consumes : Consumes readNext := by
  intro b m rest h
  simp only [readNext,ite_none_right_eq_some] at h
  have hlt := length_of_readMember h.2
  rw [length_tail] at hlt
  omega

lemma readMember_member_append (m : Member) (rest : List UInt8) :
    readMember (member m ++ rest) = some (m.toValid,rest) := by
  rw [readMember,member,append_assoc,unquote_quote_append,bind_some]
  simp only [cons_append,head?_cons,tail_cons,if_true,unquote_quote_append,map_some]
  rfl

/-- An object is read back with what the replacement character makes of its strings. -/
theorem readObject_object_append (ms : List Member) (rest : List UInt8) :
    readObject (object ms ++ rest) = some (ms.map Member.toValid,rest) := by
  cases ms with
  | nil => rfl
  | cons m ms =>
    have hstop : readNext (125::rest) = none := rfl
    have hnext (m : Member) (rest : List UInt8) : readNext ((44::member m)++rest) = some (m.toValid,rest) :=
      readMember_member_append m rest
    have hmany := many_flatMap_map readNext_consumes (fun m => 44::member m) Member.toValid ms
      (125::rest) fun m _ rest => hnext m rest
    have hrest := remainder_flatMap readNext_consumes (fun m => 44::member m) Member.toValid ms
      (125::rest) fun m _ rest => hnext m rest
    have hhead : (object (m::ms) ++ rest).head? = some 123 := rfl
    have htail : (object (m::ms) ++ rest).tail = member m ++
      ((ms.flatMap fun m => 44::member m) ++ 125::rest) := by simp [object]
    have hquote : (member m ++ ((ms.flatMap fun m => 44::member m) ++ 125::rest)).head? =
      some 34 := by simp [member,quote]
    rw [readObject,if_pos hhead,htail,if_neg (by rw [hquote]; decide),readMember_member_append,bind_some,hmany,hrest,
      many_of_none hstop,remainder_of_none hstop,append_nil]
    rfl

/-- The strings of an object that was read are valid. -/
theorem valid_of_readObject {ms : List Member} (h : readObject b = some (ms,rest)) :
    ∀ m ∈ ms, Valid m.1 ∧ Valid m.2 := by
  have hmember {b rest : List UInt8} {m : Member} (h : readMember b = some (m,rest)) : Valid m.1 ∧ Valid m.2 := by
    obtain ⟨k,hk,h⟩ := bind_eq_some_iff.mp h
    simp only [ite_none_right_eq_some,map_eq_some_iff,Prod.mk.injEq] at h
    obtain ⟨-,v,hv,rfl,-⟩ := h
    exact ⟨valid_of_unquote hk,valid_of_unquote hv⟩
  intro m hm
  simp only [readObject,ite_none_right_eq_some] at h
  obtain ⟨-,h⟩ := h
  split_ifs at h
  · cases h
    cases hm
  · obtain ⟨⟨m',b'⟩,hm',h⟩ := bind_eq_some_iff.mp h
    simp only [ite_none_right_eq_some,Option.some.injEq,Prod.mk.injEq] at h
    obtain ⟨-,rfl,-⟩ := h
    obtain rfl | hm := mem_cons.mp hm
    · exact hmember hm'
    · obtain ⟨s,rest',hs⟩ := exists_of_mem_many hm
      simp only [readNext,ite_none_right_eq_some] at hs
      exact hmember hs.2

end Objects
end TitanKV.Json
