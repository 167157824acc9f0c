import TitanKV.Minikv.SSTableLookup

/-! Scanning a range of a table. The scan ends at the first block whose last user key is past the end of the range,
although the block may begin inside of it. -/
namespace TitanKV.Minikv
open List Store

/-- The range of a scan; an empty end is no bound. -/
def Within (start stop k : Bytes) : Prop := compare k start ≠ .lt ∧ (stop = [] ∨ compare k stop ≠ .gt)

instance (start stop k : Bytes) : Decidable (Within start stop k) := inferInstanceAs (Decidable (_ ∧ _))

def endsPast (stop lastKey : Bytes) : Bool := !stop.isEmpty && compare (internalKeyUserKey lastKey) stop = .gt

def blocksLeft (stop : Bytes) (bs : List BlockBuilder) : List BlockBuilder :=
  bs.dropWhile fun b => !endsPast stop b.lastKey

lemma inRange_eq (start stop : Bytes) (e : KeyValue) :
    inRange start stop e = decide (Within start stop (internalKeyUserKey e.1)) := by
  have hstart : compare (internalKeyUserKey e.1) [] ≠ .lt := by
    cases internalKeyUserKey e.1 <;> simp [compare,List.compareLex]
  rw [Bool.eq_iff_iff,decide_eq_true_eq]
  simp only [inRange,Within,Bool.and_eq_true,Bool.or_eq_true,List.isEmpty_iff,decide_eq_true_eq]
  refine and_congr_left' ⟨?_,Or.inr⟩
  rintro (rfl | h)
  · exact hstart
  · exact h

section Placed
variable {codec : Codec} {start stop : Bytes}

variable {blocks : List PlacedBlock}

lemma scanBlocks_range {content : Bytes}
    (h : ∀ x ∈ blocks, ∃ raw, StoredAt codec content x.2.handle raw ∧ forEach raw = x.1) (pos : ℕ) :
    scanBlocks codec start stop (blocks.map Prod.snd) ⟨content,pos,[]⟩ =
      (.Ok,(placedEntries (blocks.takeWhile fun x => !endsPast stop x.2.lastKey)).filter (inRange start stop)) := by
  induction blocks generalizing pos with
  | nil => rfl
  | cons x blocks ih =>
    rw [map_cons,scanBlocks,takeWhile_cons]
    cases hpast : endsPast stop x.2.lastKey with
    | true =>
      rw [if_pos (by simpa [endsPast] using hpast)]
      rfl
    | false =>
      obtain ⟨raw,hstored,hraw⟩ := h x mem_cons_self
      obtain ⟨pos',hread⟩ := hstored.readBlock pos
      rw [if_neg (by simpa [endsPast] using hpast),hread]
      simp only [ih (fun y hy => h y (mem_cons_of_mem x hy)) pos',hraw,placedEntries,Bool.not_false,if_true,
        flatMap_cons,filter_append]

lemma placedEntries_dropWhile (compression : CompressionType) (stop : Bytes) (offset : ℕ) (bs : List BlockBuilder) :
    placedEntries ((placeBlocks codec compression offset bs).dropWhile fun x => !endsPast stop x.2.lastKey) =
      (blocksLeft stop bs).flatMap fun b => forEach b.finish.buffer := by
  induction bs generalizing offset with
  | nil => rfl
  | cons b bs ih =>
    rw [placeBlocks,dropWhile_cons,blocksLeft,dropWhile_cons]
    cases endsPast stop b.lastKey with
    | true =>
      exact @placedEntries_placeBlocks codec compression (b::bs) offset
    | false =>
      exact ih _

lemma SSTableReader.Over.scanRange {r : SSTableReader} (h : r.Over codec blocks)
    (start stop : Bytes) : r.scan codec start stop =
      (.Ok,(placedEntries (blocks.takeWhile fun x => !endsPast stop x.2.lastKey)).filter (inRange start stop)) := by
  obtain ⟨content,pos,hfile,hstored⟩ := h.stored
  rw [SSTableReader.scan,h.index,hfile,scanBlocks_range hstored]

end Placed

/-- A table that was built without a failing call is scanned completely exactly if no entry of the range stands in
the first block that ends past it or behind that block. -/
theorem SSTableReader.scan_complete_iff (codec : Codec) (blockSize : ℕ) (compression : CompressionType)
    {outcomes : List WriteOutcome} (hfull : ∀ o ∈ outcomes, o = .full) {es : List KeyValue}
    (hsizes : SizesBelow (2^31) blockSize es) (start stop : Bytes) :
    ∃ r, openFile true (some (((SSTableBuilder.init blockSize compression true outcomes).addAll codec
        es).finish codec).2.file.content) [] = some r ∧
      (r.scan codec start stop = (.Ok,es.filter fun e => Within start stop (internalKeyUserKey e.1)) ↔
        ∀ b ∈ blocksLeft stop (dataBlocks blockSize .init es), ∀ e ∈ forEach b.finish.buffer,
          ¬ Within start stop (internalKeyUserKey e.1)) := by
  obtain ⟨-,r,hopen,hover,hentries⟩ := SSTableBuilder.exists_over codec blockSize compression hfull
    (hsizes.mono (by norm_num))
  have hscan := hover.scanRange start stop
  have hleft := @placedEntries_dropWhile codec compression stop 0 (dataBlocks blockSize .init es)
  generalize hblocks : placeBlocks codec compression 0 (dataBlocks blockSize .init es) = blocks at *
  have hsplit : es.filter (inRange start stop) =
      (placedEntries (blocks.takeWhile fun x => !endsPast stop x.2.lastKey)).filter (inRange start stop) ++
        ((blocksLeft stop (dataBlocks blockSize .init es)).flatMap fun b => forEach b.finish.buffer).filter
          (inRange start stop) := by
    rw [← hleft,← filter_append,placedEntries,placedEntries,← flatMap_append,takeWhile_append_dropWhile]
    exact congrArg (List.filter _) hentries.symm
  refine ⟨r,hopen,?_⟩
  simp only [← inRange_eq]
  rw [hscan,hsplit,Prod.mk.injEq,and_iff_right rfl,self_eq_append_right,filter_eq_nil_iff]
  simp only [mem_flatMap,inRange_eq,decide_eq_true_eq]
  constructor
  · exact fun h b hb e he => h e ⟨b,hb,he⟩
  · rintro h e ⟨b,hb,he⟩
    exact h b hb e he

/-- Two keys, each in a block of its own. -/
theorem SSTableReader.scan_complete_of_blocks :
    ∃ r, openFile true (some (((SSTableBuilder.init 1 .snappy true []).addAll markingCodec
        straddlingEntries).finish markingCodec).2.file.content) [] = some r ∧
      r.scan markingCodec [] [107] =
        (.Ok,straddlingEntries.filter fun e => Within [] [107] (internalKeyUserKey e.1)) := by
  obtain ⟨r,hopen,hiff⟩ := @scan_complete_iff markingCodec 1 .snappy [] (by simp) straddlingEntries
    (.of_totalSize (by decide +kernel) 1) [] [107]
  exact ⟨r,hopen,hiff.mpr (by decide +kernel)⟩

/-- Two keys in one block: a scan up to a key between them does not find the first. -/
theorem SSTableReader.scan_misses_key : (openFile true (some (((SSTableBuilder.init 4096 .snappy true []).addAll
      markingCodec [((⟨[97],1,.value⟩ : InternalKey).encode,[118]),
        ((⟨[99],2,.value⟩ : InternalKey).encode,[119])]).finish
        markingCodec).2.file.content) []).map (fun r => r.scan markingCodec [] [98]) = some (.Ok,[]) ∧
    Within [] [98] (internalKeyUserKey (⟨[97],1,.value⟩ : InternalKey).encode) := by
  decide +kernel

end TitanKV.Minikv
