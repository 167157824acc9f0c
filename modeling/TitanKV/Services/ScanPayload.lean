import TitanKV.Minikv.Server

/-! The payload of a scan: the server encodes it, the Go client of the data service decodes it. The decoder slices
the payload at offsets that it computes from the lengths in it; a slice outside of the payload would be a panic. -/
namespace TitanKV.Services
open Minikv List Option

/-- A slice expression on a byte slice; without a value it panics. -/
def slice (s : Bytes) (lo hi : ℕ) : Option Bytes :=
  if lo≤hi ∧ hi ≤ s.length then some ((s.drop lo).take (hi-lo)) else none

/-- `binary.LittleEndian.Uint32`, which panics on fewer than four bytes. -/
def uint32 (s : Bytes) : Option ℕ := if s.length<4 then none else some (decodeFixed32 s)

def uint32At (s : Bytes) (off : ℕ) : Option ℕ := (slice s off (off+4)).bind uint32

/-- The size of a `KVPair`, two strings. -/
def kvPairSize : ℕ := 32

/-- What `make` allocates at most on a 64-bit Linux; beyond it panics. -/
def makeLimit : ℕ := 2^48

/-- The loop of `decodeScanPayload`, with the number of items that are still to come. Without a value it panics. -/
def decodeItems (payload : Bytes) : ℕ → ℕ → List KeyValue → Option (Except String (List KeyValue))
  | 0,_,out => some (.ok out)
  | n+1,off,out =>
    if payload.length<off+4 then some (.error "scan truncated key_len")
    else do
      let klen ← uint32At payload off
      let off := off+4
      if payload.length<off+klen+4 then some (.error "scan truncated key")
      else
        let key ← slice payload off (off+klen)
        let off := off+klen
        let vlen ← uint32At payload off
        let off := off+4
        if payload.length<off+vlen then some (.error "scan truncated value")
        else
          let val ← slice payload off (off+vlen)
          decodeItems payload n (off+vlen) (out++[(key,val)])

def decodeScanPayload (payload : Bytes) : Option (Except String (List KeyValue)) :=
  if payload.length<4 then some (.error "scan payload too short")
  else do
    let n ← uint32At payload 0
    if makeLimit<kvPairSize*n then none else decodeItems payload n 4 []

section Slices
variable {s : Bytes} {lo n : ℕ}

lemma slice_eq (h : lo+n ≤ s.length) : slice s lo (lo+n) = some ((s.drop lo).take n) := by
  rw [slice,if_pos ⟨Nat.le_add_right lo n,h⟩,Nat.add_sub_cancel_left]

lemma uint32At_eq (h : lo+4 ≤ s.length) : uint32At s lo = some (decodeFixed32 (s.drop lo)) := by
  have hlen : ((s.drop lo).take 4).length = 4 := by
    rw [length_take,length_drop]
    omega
  rw [uint32At,slice_eq h,bind_some,uint32,hlen,if_neg (by omega),decodeFixed32,take_take,Nat.min_self,
    decodeFixed32]

end Slices

def wireItem (kv : KeyValue) : Bytes := encodeFixed32 kv.1.length ++ kv.1 ++ encodeFixed32 kv.2.length ++ kv.2

lemma encodeScanPayload_eq (items : List KeyValue) :
    encodeScanPayload items = encodeFixed32 items.length ++ items.flatMap wireItem := rfl

lemma length_wireItem (kv : KeyValue) : (wireItem kv).length = 4+kv.1.length+4+kv.2.length := by
  simp [wireItem]
  omega

/-- One round of the loop, on what is left of the payload: the item and how long it is. -/
def readItem (rest : Bytes) : Except String (KeyValue × ℕ) :=
  let klen := decodeFixed32 rest
  let vlen := decodeFixed32 (rest.drop (4+klen))
  if rest.length<4 then .error "scan truncated key_len"
  else if rest.length<4+klen+4 then .error "scan truncated key"
  else if rest.length<4+klen+4+vlen then .error "scan truncated value"
  else .ok (((rest.drop 4).take klen,(rest.drop (4+klen+4)).take vlen),4+klen+4+vlen)

/-- What a round comes to is what the loop makes of it, and it does not panic. -/
def proceed (payload : Bytes) (n off : ℕ) (out : List KeyValue) :
    Except String (KeyValue × ℕ) → Option (Except String (List KeyValue))
  | .error e => some (.error e)
  | .ok (kv,used) => decodeItems payload n (off+used) (out++[kv])

lemma decodeItems_succ {payload : Bytes} {off : ℕ} (hoff : off≤payload.length) (n : ℕ) (out : List KeyValue) :
    decodeItems payload (n+1) off out = proceed payload n off out (readItem (payload.drop off)) := by
  have hlen : (payload.drop off).length = payload.length-off := length_drop
  rw [decodeItems,readItem]
  by_cases hkeyLen : payload.length<off+4
  · rw [if_pos hkeyLen,if_pos (by omega)]
    rfl
  · rw [if_neg hkeyLen,if_neg (by omega),uint32At_eq (by omega)]
    simp only [bind_eq_bind,bind_some]
    generalize hk : decodeFixed32 (payload.drop off) = klen
    by_cases hkey : payload.length<off+4+klen+4
    · rw [if_pos hkey,if_pos (by omega)]
      rfl
    · have hvalue : payload.drop (off+4+klen) = (payload.drop off).drop (4+klen) := by
        rw [drop_drop,Nat.add_assoc]
      rw [if_neg hkey,if_neg (by omega),slice_eq (by omega),bind_some,uint32At_eq (by omega),bind_some,
        hvalue]
      generalize hv : decodeFixed32 ((payload.drop off).drop (4+klen)) = vlen
      by_cases hval : payload.length<off+4+klen+4+vlen
      · rw [if_pos hval,if_pos (by omega)]
        rfl
      · rw [if_neg hval,if_neg (by omega),slice_eq (by omega),bind_some,proceed,drop_drop,drop_drop]
        simp only [Nat.add_assoc]

lemma readItem_wireItem {kv : KeyValue} (hkey : kv.1.length<2^32) (hval : kv.2.length<2^32) (rest : Bytes) :
    readItem (wireItem kv ++ rest) = .ok (kv,(wireItem kv).length) := by
  have hlen := length_wireItem kv
  have hlayout : wireItem kv ++ rest =
      encodeFixed32 kv.1.length ++ (kv.1++(encodeFixed32 kv.2.length ++ (kv.2++rest))) := by
    simp only [wireItem,append_assoc]
  have hklen : decodeFixed32 (wireItem kv ++ rest) = kv.1.length := by
    rw [hlayout,decodeFixed32_encode,Nat.mod_eq_of_lt hkey]
  have hdrop : (wireItem kv ++ rest).drop 4 = kv.1++(encodeFixed32 kv.2.length ++ (kv.2++rest)) := by
    rw [hlayout,drop_left' (length_encodeFixed32 _)]
  have hdrop' : (wireItem kv ++ rest).drop (4+kv.1.length) = encodeFixed32 kv.2.length ++ (kv.2++rest) := by
    rw [← drop_drop,hdrop,drop_left]
  have hvlen : decodeFixed32 ((wireItem kv ++ rest).drop (4+kv.1.length)) = kv.2.length := by
    rw [hdrop',decodeFixed32_encode,Nat.mod_eq_of_lt hval]
  have hdrop'' : (wireItem kv ++ rest).drop (4+kv.1.length+4) = kv.2++rest := by
    rw [← drop_drop,hdrop',drop_left' (length_encodeFixed32 _)]
  have hfits : 4+kv.1.length+4+kv.2.length≤(wireItem kv ++ rest).length := by
    rw [length_append,hlen]
    exact Nat.le_add_right _ _
  rw [readItem,hklen,hvlen,if_neg (by omega),if_neg (by omega),if_neg (by omega),hdrop,hdrop'',take_left,take_left,
    hlen]

lemma drop_eq_take_append (s : Bytes) (lo n : ℕ) : s.drop lo = (s.drop lo).take n ++ s.drop (lo+n) := by
  rw [← drop_drop,take_append_drop]

lemma eq_wireItem_of_readItem {rest : Bytes} {kv : KeyValue} {used : ℕ} (h : readItem rest = .ok (kv,used)) :
    rest = wireItem kv ++ rest.drop used ∧ used≤rest.length ∧ kv.1.length<2^32 ∧ kv.2.length<2^32 := by
  rw [readItem] at h
  have hklt := decodeFixed32_lt rest
  have hvlt := decodeFixed32_lt (rest.drop (4+decodeFixed32 rest))
  split at h
  · cases h
  · rename_i h₁
    split at h
    · cases h
    · split at h
      · cases h
      · rename_i h₃
        obtain ⟨rfl,rfl⟩ := Prod.mk.inj (Except.ok.inj h)
        have hfirst := eq_encodeFixed32_append (not_lt.mp h₁)
        have hsecond := @eq_encodeFixed32_append (rest.drop (4+decodeFixed32 rest)) (by rw [length_drop]; omega)
        rw [drop_drop] at hsecond
        generalize hk : decodeFixed32 rest = klen at *
        generalize hv : decodeFixed32 (rest.drop (4+klen)) = vlen at *
        have hkey : ((rest.drop 4).take klen).length = klen := by
          rw [length_take,length_drop]
          omega
        have hval : ((rest.drop (4+klen+4)).take vlen).length = vlen := by
          rw [length_take,length_drop]
          omega
        refine ⟨?_,not_lt.mp h₃,by rw [hkey]; exact hklt,by rw [hval]; exact hvlt⟩
        calc rest = encodeFixed32 klen ++ ((rest.drop 4).take klen ++ (encodeFixed32 vlen ++
              ((rest.drop (4+klen+4)).take vlen ++ rest.drop (4+klen+4+vlen)))) := by
              rw [← drop_eq_take_append,← hsecond,← drop_eq_take_append,← hfirst]
          _ = _ := by simp only [wireItem,hkey,hval,append_assoc]

section Loop
variable {payload : Bytes}

lemma decodeItems_wire {items : List KeyValue} (hfit : ∀ kv ∈ items, kv.1.length<2^32 ∧ kv.2.length<2^32)
    {front rest : Bytes} (hpayload : payload = front++(items.flatMap wireItem ++ rest)) (out : List KeyValue) :
    decodeItems payload items.length front.length out = some (.ok (out++items)) := by
  induction items generalizing front out with
  | nil => rw [append_nil]; rfl
  | cons kv items ih =>
    obtain ⟨hkey,hval⟩ := hfit kv mem_cons_self
    rw [flatMap_cons,append_assoc] at hpayload
    have hdrop : payload.drop front.length = wireItem kv ++ (items.flatMap wireItem ++ rest) := by
      rw [hpayload,drop_left]
    have hnext : payload = (front ++ wireItem kv)++(items.flatMap wireItem ++ rest) := by
      rw [hpayload,append_assoc]
    rw [length_cons,decodeItems_succ (by rw [hpayload,length_append]; omega),hdrop,readItem_wireItem hkey hval,
      proceed,← length_append,ih (fun kv' hkv => hfit kv' (mem_cons_of_mem kv hkv)) hnext,append_assoc]
    rfl

lemma decodeItems_cases (n : ℕ) {off : ℕ} (hoff : off≤payload.length) (out : List KeyValue) :
    (∃ e, decodeItems payload n off out = some (.error e)) ∨ ∃ items rest,
      decodeItems payload n off out = some (.ok (out++items)) ∧ items.length = n ∧
        payload.drop off = items.flatMap wireItem ++ rest := by
  induction n generalizing off out with
  | zero => exact .inr ⟨[],payload.drop off,by rw [append_nil]; rfl,rfl,rfl⟩
  | succ n ih =>
    rw [decodeItems_succ hoff]
    cases hread : readItem (payload.drop off) with
    | error e => exact .inl ⟨e,rfl⟩
    | ok r =>
      obtain ⟨kv,used⟩ := r
      obtain ⟨hlayout,hused,-,-⟩ := eq_wireItem_of_readItem hread
      rw [length_drop] at hused
      rw [proceed]
      rcases ih (show off+used ≤ payload.length by omega) (out++[kv]) with hfail | ⟨items,rest,hok,hcount,hrest⟩
      · exact .inl hfail
      · refine .inr ⟨kv::items,rest,by rw [hok,append_assoc]; rfl,by rw [length_cons,hcount],?_⟩
        rw [hlayout,drop_drop,hrest,flatMap_cons,append_assoc]

end Loop

lemma decodeScanPayload_eq {payload : Bytes} (h : 4≤payload.length) :
    decodeScanPayload payload = decodeItems payload (decodeFixed32 payload) 4 [] := by
  have hlt := decodeFixed32_lt payload
  rw [decodeScanPayload,if_neg (not_lt.mpr h),uint32At_eq (by omega),drop_zero]
  simp only [bind_eq_bind,bind_some]
  rw [if_neg (by rw [makeLimit,kvPairSize]; omega)]

/-- The client gets back what the server has encoded; and of no payload at all does it make a panic or items that the
payload does not begin with. -/
theorem decodeScanPayload_encodeScanPayload :
    (∀ items : List KeyValue, items.length<2^32 → (∀ kv ∈ items, kv.1.length<2^32 ∧ kv.2.length<2^32) →
      decodeScanPayload (encodeScanPayload items) = some (.ok items)) ∧
    ∀ payload, (∃ e, decodeScanPayload payload = some (.error e)) ∨
      ∃ items, decodeScanPayload payload = some (.ok items) ∧ encodeScanPayload items <+: payload := by
  constructor
  · intro items hcount hfit
    have hlayout : encodeScanPayload items = encodeFixed32 items.length ++ (items.flatMap wireItem ++ []) := by
      rw [encodeScanPayload_eq,append_nil]
    have hloop := decodeItems_wire hfit hlayout []
    rw [length_encodeFixed32] at hloop
    rw [decodeScanPayload_eq (by rw [encodeScanPayload_eq]; simp),encodeScanPayload_eq,decodeFixed32_encode,
      Nat.mod_eq_of_lt hcount,← encodeScanPayload_eq,hloop]
    rfl
  · intro payload
    by_cases hshort : payload.length<4
    · exact .inl ⟨_,by rw [decodeScanPayload,if_pos hshort]⟩
    · rw [decodeScanPayload_eq (not_lt.mp hshort)]
      rcases decodeItems_cases (decodeFixed32 payload) (not_lt.mp hshort) [] with hfail | ⟨items,rest,hok,hcount,
        hrest⟩
      · exact .inl hfail
      · refine .inr ⟨items,hok,rest,?_⟩
        rw [encodeScanPayload_eq,hcount,append_assoc,← hrest,← eq_encodeFixed32_append (not_lt.mp hshort)]

/-- Two items, the second with an empty value. -/
theorem decodeScanPayload_two :
    decodeScanPayload (encodeScanPayload [([97],[49,50]),([98],[])]) = some (.ok [([97],[49,50]),([98],[])]) :=
  decodeScanPayload_encodeScanPayload.1 _ (by decide) (by decide)

end TitanKV.Services
