import TitanKV.Minikv.IndexCorruption
import TitanKV.Minikv.ReadFailures

/-! `SSTableReader::get` beside a bloom file that a crash has cut off. -/
namespace TitanKV.Minikv
open List

namespace BloomFilter
variable {f : BloomFilter}

/-- `resize` throws for more than `2^63-1` bytes. -/
def Loads (stack content : Bytes) : Prop := (load stack content).bits.length<2^63

lemma length_cut (f : BloomFilter) (p : ℕ) : (f.cut p).bits.length = f.bits.length := by
  simp only [cut,length_append,length_take,length_replicate]
  omega

lemma positions_cut (f : BloomFilter) (p : ℕ) (key : Bytes) : (f.cut p).positions key = f.positions key := by
  rw [positions,length_cut]
  rfl

lemma testBit_cut (f : BloomFilter) (p q : ℕ) :
    testBit (f.cut p).bits q = (decide (q<8*(p-16)) && testBit f.bits q) := by
  have hlt : q<8*(p-16) ↔ q/8<p-16 := by omega
  rw [decide_eq_decide.mpr hlt,testBit,testBit,cut,getD_eq_getElem?_getD,getD_eq_getElem?_getD]
  by_cases hq : q/8<p-16
  · by_cases hbits : q/8<f.bits.length
    · rw [getElem?_append_left (by rw [length_take]; omega),getElem?_take_of_lt hq,decide_eq_true hq,Bool.true_and]
    · rw [getElem?_eq_none (by rw [length_append,length_take,length_replicate]; omega),
        getElem?_eq_none (by omega : f.bits.length ≤ q/8),decide_eq_true hq,Bool.true_and]
  · rw [getElem?_append_right (by rw [length_take]; omega),getElem?_replicate,decide_eq_false hq,Bool.false_and]
    split <;> simp

/-- A key of the filter is found in what is left of it where all its bits are left. -/
lemma mightContain_cut {key : Bytes} (h : f.mightContain key = true) (p : ℕ) :
    (f.cut p).mightContain key = true ↔ ∀ q ∈ f.positions key, q<8*(p-16) := by
  rw [mightContain,all_eq_true] at h
  rw [mightContain,positions_cut,all_eq_true]
  refine forall₂_congr fun q hq => ?_
  rw [testBit_cut,h q hq,Bool.and_true,decide_eq_true_eq]

/-- The last byte of the size is not in the file, and may be any. -/
lemma not_loads_of_short {content : Bytes} (h : content.length<16) : ¬Loads (replicate 16 255) content := by
  obtain ⟨front,hfront,hlength⟩ : ∃ front, content.take 16 ++ (replicate 16 255).drop content.length = front++[255] ∧
      front.length = 15 := by
    refine ⟨content++replicate (15-content.length) 255,?_,?_⟩
    · rw [take_of_length_le h.le,drop_replicate,append_assoc,← replicate_succ']
      congr 2
      omega
    · rw [length_append,length_replicate]
      omega
  have hsize : 2^63 ≤ decodeFixed64 ((content.take 16 ++ (replicate 16 255).drop content.length).drop 8) := by
    rw [hfront,drop_append_of_le_length (by omega),decodeFixed64,take_of_length_le (by simp [hlength]),
      LittleEndian.value_append,length_drop,hlength]
    change 2^63 ≤ LittleEndian.value (front.drop 8)+256^7*(255+256*0)
    omega
  intro hloads
  simp only [Loads,load,length_append,length_replicate] at hloads
  omega

end BloomFilter

/-- `open` loads the file, and each of the keys is answered as without a filter. -/
def HidesNothing (codec : Codec) (r : SSTableReader) (fails : BlockHandle → Bool) (es : List KeyValue)
    (sidecar : Bytes) : Prop :=
  ∀ stack : Bytes, stack.length = 16 → ∀ e ∈ es, BloomFilter.Loads stack sidecar ∧
    r.get codec (some (.load stack sidecar)) fails (internalKeyUserKey e.1) =
      r.get codec none fails (internalKeyUserKey e.1)

namespace SSTableReader
variable {codec : Codec} {r : SSTableReader} {f : BloomFilter} {fails : BlockHandle → Bool} {userKey : Bytes}

lemma get_of_rejected (h : ¬f.mightContain userKey = true) : r.get codec (some f) fails userKey = none := by
  simp [SSTableReader.get,h]

lemma get_filtered_iff : r.get codec (some f) fails userKey = r.get codec none fails userKey ↔
    f.mightContain userKey = true ∨ r.get codec none fails userKey = none := by
  by_cases hf : f.mightContain userKey = true
  · simp [SSTableReader.get,hf]
  · rw [get_of_rejected hf,eq_comm,or_iff_right hf]

end SSTableReader

/-- Nothing is hidden where the file has the whole header and every bit of each key with a value. -/
theorem hidesNothing_take_iff (codec : Codec) (r : SSTableReader) (fails : BlockHandle → Bool)
    (es : List KeyValue) (p : ℕ) : HidesNothing codec r fails es ((bloomOf es).persist.take p) ↔
      ∀ e ∈ es, 16≤p ∧ ((∀ q ∈ (bloomOf es).positions (internalKeyUserKey e.1), q<8*(p-16)) ∨
        r.get codec none fails (internalKeyUserKey e.1) = none) := by
  have hsized := sized_bloomOf es
  by_cases hp : 16≤p
  · have hloads : ((bloomOf es).cut p).bits.length<2^63 := by
      have hbytes := hsized.bytes
      rw [BloomFilter.length_cut]
      omega
    have hcut : HidesNothing codec r fails es ((bloomOf es).persist.take p) ↔ ∀ e ∈ es,
        r.get codec (some ((bloomOf es).cut p)) fails (internalKeyUserKey e.1) =
          r.get codec none fails (internalKeyUserKey e.1) := by
      constructor
      · intro h e he
        have hget := (h (replicate 16 0) rfl e he).2
        rwa [hsized.load_take _ rfl hp] at hget
      · intro h stack hstack e he
        rw [BloomFilter.Loads,hsized.load_take stack hstack hp]
        exact ⟨hloads,h e he⟩
    rw [hcut]
    refine forall₂_congr fun e he => ?_
    rw [SSTableReader.get_filtered_iff,BloomFilter.mightContain_cut (bloomOf_mightContain he),and_iff_right hp]
  · have hshort : ((bloomOf es).persist.take p).length<16 := (length_take_le _ _).trans_lt (by omega)
    constructor
    · intro h e he
      exact absurd (h _ rfl e he).1 (BloomFilter.not_loads_of_short hshort)
    · intro h stack _ e he
      exact absurd (h e he).1 hp

/-- Only the header of the file is left, and the filter rejects the key. -/
theorem get_hides_key : ∃ r, SSTableReader.openFile true (some oneEntryTable) [] = some r ∧
    r.get Store.markingCodec none (fun _ => false) [107] = some [118] ∧
    r.get Store.markingCodec (some (.load (replicate 16 0) ((bloomOf [oneEntry]).persist.take 16)))
      (fun _ => false) [107] = none ∧
    ¬HidesNothing Store.markingCodec r (fun _ => false) [oneEntry] ((bloomOf [oneEntry]).persist.take 16) := by
  have hfound : (SSTableReader.openFile true (some oneEntryTable) []).bind
      (fun r => r.get Store.markingCodec none (fun _ => false) [107]) = some [118] := by decide +kernel
  obtain ⟨r,hopen,hget⟩ := Option.bind_eq_some_iff.mp hfound
  have huser : internalKeyUserKey oneEntry.1 = [107] := by decide +kernel
  have hmight := bloomOf_mightContain (mem_singleton_self oneEntry)
  rw [huser] at hmight
  have hrejected : ¬((bloomOf [oneEntry]).cut 16).mightContain [107] = true := by
    rw [BloomFilter.mightContain_cut hmight]
    intro h
    exact Nat.not_lt_zero _ (h _ (mem_map_of_mem (mem_range.mpr (by decide : 0<6))))
  have hnone : r.get Store.markingCodec (some (.load (replicate 16 0) ((bloomOf [oneEntry]).persist.take 16)))
      (fun _ => false) [107] = none := by
    rw [(sized_bloomOf _).load_take _ rfl le_rfl]
    exact SSTableReader.get_of_rejected hrejected
  refine ⟨r,hopen,hget,hnone,fun h => ?_⟩
  have hsame := (h (replicate 16 0) rfl oneEntry (mem_singleton_self oneEntry)).2
  rw [huser,hnone,hget] at hsame
  cases hsame

end TitanKV.Minikv
