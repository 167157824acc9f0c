import TitanKV.Minikv.CompactionFaults
import TitanKV.Minikv.SSTableLookup

/-! What an `Ok` of `SSTableBuilder::finish` says about the file. `finish` returns the status of the index alone: it
ignores those of the last data block, of the footer and of `fdatasync`, and it does not know of a block that `add`
could not write. -/
namespace TitanKV.Minikv
open Store

namespace OutFile
variable {f : OutFile} {buf : Bytes}

def calm (f : OutFile) : OutFile := { f with outcomes := [] }

@[simp] theorem opened_write (f : OutFile) (buf : Bytes) : (f.write buf).2.opened = f.opened := by
  rw [write]
  split <;> rfl

lemma opened_of_ret (h : (f.write buf).1 = buf.length) : f.opened = true := by
  by_contra hclosed
  rw [write,if_neg hclosed] at h
  omega

lemma write_calm (h : (f.write buf).1 = buf.length) :
    f.calm.write buf = ((buf.length : ℤ),(f.write buf).2.calm) := by
  have hafter : (f.write buf).2.calm = ⟨f.opened,f.content++buf,[]⟩ := by
    rw [calm,content_of_ret h,opened_write]
  have hopen := opened_of_ret h
  rw [hafter,write,if_pos (show f.calm.opened = true from hopen)]
  rfl

end OutFile

namespace SSTableBuilder
variable {codec : Codec} {b : SSTableBuilder} {es : List KeyValue}

def calm (b : SSTableBuilder) : SSTableBuilder := { b with file := b.file.calm }

section Flush
variable {payload : Bytes} {used : CompressionType}

/-- What the calls return of a block that is written. -/
structure BlockWritten (b : SSTableBuilder) (payload : Bytes) (used : CompressionType) : Prop where
  header : (b.file.write (blockHeader payload b.dataBlock.finish.buffer.length used)).1 =
    (blockHeader payload b.dataBlock.finish.buffer.length used).length
  data : ((b.file.write (blockHeader payload b.dataBlock.finish.buffer.length used)).2.write payload).1 =
    payload.length

def pastBlock (b : SSTableBuilder) (payload : Bytes) (used : CompressionType) : SSTableBuilder :=
  { b with
    file := ((b.file.write (blockHeader payload b.dataBlock.finish.buffer.length used)).2.write payload).2
    dataBlock := .init
    indexBlock := b.indexBlock ++ indexEntry b.lastKey ⟨b.offset,kSSTableBlockHeader+payload.length⟩
    offset := b.offset+kSSTableBlockHeader+payload.length }

lemma flushDataBlock_of_written (hne : ¬ b.dataBlock.empty = true)
    (hstored : blockPayload codec b.compression b.dataBlock.finish.buffer = (payload,used))
    (h : b.BlockWritten payload used) : b.flushDataBlock codec = (.Ok,b.pastBlock payload used) := by
  have hheader := h.header
  have hdata := h.data
  simp only [flushDataBlock,if_neg hne,hstored,hheader,hdata,kSSTableBlockHeader,ne_eq,not_true_eq_false,if_false]
  rfl

lemma written_of_flushDataBlock (hne : ¬ b.dataBlock.empty = true)
    (hstored : blockPayload codec b.compression b.dataBlock.finish.buffer = (payload,used))
    (h : (b.flushDataBlock codec).1.ok = true) : b.BlockWritten payload used := by
  simp only [flushDataBlock,if_neg hne,hstored] at h
  split at h
  · cases h
  · rename_i hheader
    split at h
    · cases h
    · rename_i hdata
      refine ⟨?_,not_not.mp hdata⟩
      exact not_not.mp hheader

lemma flushDataBlock_calm (h : (b.flushDataBlock codec).1.ok = true) :
    b.calm.flushDataBlock codec = (.Ok,(b.flushDataBlock codec).2.calm) := by
  by_cases hempty : b.dataBlock.empty = true
  · rw [flushDataBlock,if_pos (show b.calm.dataBlock.empty = true from hempty),flushDataBlock,if_pos hempty]
  · obtain ⟨⟨payload,used⟩,hstored⟩ :
      ∃ stored, blockPayload codec b.compression b.dataBlock.finish.buffer = stored := ⟨_,rfl⟩
    have hwritten := written_of_flushDataBlock hempty hstored h
    have hfirst := OutFile.write_calm hwritten.header
    have hsecond := OutFile.write_calm hwritten.data
    have hcalm : b.calm.BlockWritten payload used := by
      refine ⟨congrArg Prod.fst hfirst,?_⟩
      change ((b.file.calm.write (blockHeader payload b.dataBlock.finish.buffer.length used)).2.write payload).1 = _
      rw [hfirst,hsecond]
    have hfile : (b.calm.pastBlock payload used).file = (b.pastBlock payload used).file.calm := by
      change ((b.file.calm.write (blockHeader payload b.dataBlock.finish.buffer.length used)).2.write payload).2 = _
      rw [hfirst,hsecond]
      rfl
    rw [flushDataBlock_of_written hempty hstored hwritten,
      flushDataBlock_of_written (show ¬ b.calm.dataBlock.empty = true from hempty) hstored hcalm]
    exact Prod.ext rfl (congrArg (fun f => { b.pastBlock payload used with file := f }) hfile)

end Flush

lemma add_calm {key value : Bytes} (h : (b.add codec key value).1.ok = true) :
    b.calm.add codec key value = (.Ok,(b.add codec key value).2.calm) := by
  rw [add] at h ⊢
  rw [add]
  by_cases hfull : b.blockSize≤(b.dataBlock.add key value).size
  · rw [if_pos hfull] at h
    rw [if_pos hfull,if_pos (show b.calm.blockSize ≤ (b.calm.dataBlock.add key value).size from hfull)]
    exact flushDataBlock_calm h
  · rw [if_neg hfull,if_neg (show ¬ b.calm.blockSize ≤ (b.calm.dataBlock.add key value).size from hfull)]
    rfl

lemma addAll_calm (h : (b.addWhileOk codec es).1.ok = true) : b.calm.addAll codec es = (b.addAll codec es).calm := by
  induction es generalizing b with
  | nil => rfl
  | cons e es ih =>
    rw [addWhileOk] at h
    by_cases hok : (b.add codec e.1 e.2).1.ok = true
    · rw [if_pos hok] at h
      have hrest := ih h
      rw [addAll,List.foldl_cons,add_calm hok]
      exact hrest
    · rw [if_neg hok] at h
      exact (hok h).elim

section Opened

@[simp] theorem opened_flushDataBlock (codec : Codec) (b : SSTableBuilder) :
    (b.flushDataBlock codec).2.file.opened = b.file.opened := by
  simp only [flushDataBlock]
  split
  · rfl
  · split
    · simp
    · split <;> simp

@[simp] theorem opened_addAll (codec : Codec) (b : SSTableBuilder) (es : List KeyValue) :
    (b.addAll codec es).file.opened = b.file.opened := by
  induction es generalizing b with
  | nil => rfl
  | cons e es ih =>
    have hadd : (b.add codec e.1 e.2).2.file.opened = b.file.opened := by
      simp only [add]
      split
      · rw [opened_flushDataBlock]
      · rfl
    exact (ih _).trans hadd

end Opened

def closed (codec : Codec) (b : SSTableBuilder) : SSTableBuilder :=
  ({ b with finished := true }.flushDataBlock codec).2

def indexed (codec : Codec) (b : SSTableBuilder) : SSTableBuilder :=
  { b.closed codec with
    file := (((b.closed codec).file.write (indexHeader (b.closed codec).indexBlock)).2.write
      (b.closed codec).indexBlock).2
    offset := (b.closed codec).offset+8+(b.closed codec).indexBlock.length }

/-- What the calls return of an index that is written. -/
structure IndexWritten (codec : Codec) (b : SSTableBuilder) : Prop where
  header : ((b.closed codec).file.write (indexHeader (b.closed codec).indexBlock)).1 =
    (indexHeader (b.closed codec).indexBlock).length
  data : (((b.closed codec).file.write (indexHeader (b.closed codec).indexBlock)).2.write
    (b.closed codec).indexBlock).1 =
    (b.closed codec).indexBlock.length

lemma indexWritten_of_finish (hopen : b.finished = false) (h : (b.finish codec).1.ok = true) :
    b.IndexWritten codec := by
  rw [finish,hopen] at h
  simp only [Bool.false_eq_true,if_false] at h
  split at h
  · cases h
  · rename_i hwritten
    rw [not_or,not_not,not_not] at hwritten
    refine ⟨?_,hwritten.2⟩
    exact hwritten.1

lemma finish_of_indexWritten (hopen : b.finished = false) (h : b.IndexWritten codec) :
    b.finish codec = (.Ok,(b.indexed codec).writeFooter) := by
  obtain ⟨hheader,hdata⟩ := h
  rw [finish,hopen]
  simp only [Bool.false_eq_true,if_false]
  rw [if_neg]
  · rfl
  · rintro (hfail | hfail)
    · exact hfail hheader
    · exact hfail hdata

def footerOf (b : SSTableBuilder) : Bytes := footer (b.offset-(8+b.indexBlock.length)) b.indexBlock.length

/-- The calls of additions and of `finish` that the status of `finish` does not depend on write their buffers: those
for the blocks that fill up, for the last block and for the footer. -/
structure Unheeded (codec : Codec) (b : SSTableBuilder) (es : List KeyValue) : Prop where
  added : (b.addWhileOk codec es).1.ok = true
  last : ({ b.addAll codec es with finished := true }.flushDataBlock codec).1.ok = true
  footer : (((b.addAll codec es).indexed codec).file.write ((b.addAll codec es).indexed codec).footerOf).1 =
    kSSTableFooterSize

/-- Where `finish` returns `Ok`, the file is opened and scanned entry by entry. -/
def Certified (codec : Codec) (b : SSTableBuilder) (es : List KeyValue) : Prop :=
  ((b.addAll codec es).finish codec).1.ok = true →
    tableEntries codec ((b.addAll codec es).finish codec).2.file.content = some es

lemma indexed_calm (hlast : ({ b with finished := true }.flushDataBlock codec).1.ok = true)
    (h : b.IndexWritten codec) :
    b.calm.IndexWritten codec ∧ b.calm.indexed codec = (b.indexed codec).calm := by
  have hclosed : b.calm.closed codec = (b.closed codec).calm := congrArg Prod.snd (flushDataBlock_calm hlast)
  have hfirst := OutFile.write_calm h.header
  have hsecond := OutFile.write_calm h.data
  have hfirst' : (b.closed codec).calm.file.write (indexHeader (b.closed codec).calm.indexBlock) = _ := hfirst
  have hsecond' : ((b.closed codec).file.write (indexHeader (b.closed codec).indexBlock)).2.calm.write
    (b.closed codec).calm.indexBlock = _ := hsecond
  refine ⟨⟨?_,?_⟩,?_⟩
  · rw [hclosed,hfirst']
    rfl
  · rw [hclosed,hfirst',hsecond']
    rfl
  · rw [indexed,hclosed,hfirst',hsecond']
    rfl

lemma content_finish_calm (hopen : b.finished = false)
    (hlast : ({ b with finished := true }.flushDataBlock codec).1.ok = true) (h : b.IndexWritten codec)
    (hfooter : ((b.indexed codec).file.write (b.indexed codec).footerOf).1 = kSSTableFooterSize) :
    (b.calm.finish codec).2.file.content = (b.finish codec).2.file.content := by
  obtain ⟨hcalm,hindexed⟩ := indexed_calm hlast h
  have hwrite := OutFile.write_calm (hfooter.trans (congrArg Nat.cast (length_footer _ _).symm))
  have hcontent := congrArg (fun result : ℤ × OutFile => result.2.content) hwrite
  rw [finish_of_indexWritten hopen h,finish_of_indexWritten (show b.calm.finished = false from hopen) hcalm,hindexed]
  exact hcontent

/-- In every run of additions and `finish`, with any failures of the `write` calls: where the calls whose results are
ignored write their buffers, an `Ok` certifies the file. -/
theorem certified_of_unheeded (codec : Codec) (blockSize : ℕ) (compression : CompressionType) (opened : Bool)
    (outcomes : List WriteOutcome) (es : List KeyValue)
    (h : (init blockSize compression opened outcomes).Unheeded codec es) (hsizes : SizesBelow (2^31) blockSize es) :
    (init blockSize compression opened outcomes).Certified codec es := by
  intro hok
  have hopen := finished_addAll codec (init blockSize compression opened outcomes) es
  have hindex := indexWritten_of_finish hopen hok
  have hopened : opened = true := by
    have hfile := OutFile.opened_of_ret hindex.header
    rwa [closed,opened_flushDataBlock,opened_addAll] at hfile
  have hcontent := content_finish_calm hopen h.last hindex h.footer
  have hcalm : (init blockSize compression opened outcomes).calm = init blockSize compression true [] := by
    rw [hopened]
    rfl
  rw [← addAll_calm h.added,hcalm] at hcontent
  obtain ⟨-,r,hr,hover,hentries⟩ := @exists_over es codec blockSize compression [] (by simp)
    (hsizes.mono (by norm_num))
  rw [hcontent] at hr
  rw [tableEntries,hr,Option.bind_some,hover.scan,hentries]
  rfl

/-- The first `write` is asked for 13 bytes and writes as many. -/
theorem certified_of_short_write :
    ((init 1 .snappy true [.short 13]).addAll markingCodec straddlingEntries |>.finish markingCodec).1 = .Ok ∧
      (init 1 .snappy true [.short 13]).Certified markingCodec straddlingEntries :=
  ⟨by decide +kernel,certified_of_unheeded markingCodec 1 .snappy true [.short 13] straddlingEntries
    ⟨by decide +kernel,by decide +kernel,by decide +kernel⟩ (.of_totalSize (by decide +kernel) 1)⟩

/-- The last block, or the footer, is not written, and `finish` returns `Ok`. -/
theorem finish_ok_without_entries :
    (((init 4096 .snappy true [.error]).addAll markingCodec straddlingEntries).finish markingCodec).1 = .Ok ∧
    tableEntries markingCodec (((init 4096 .snappy true [.error]).addAll markingCodec
      straddlingEntries).finish markingCodec).2.file.content = some [] ∧
    (((init 4096 .snappy true [.full,.full,.full,.full,.error]).addAll markingCodec straddlingEntries).finish
      markingCodec).1 = .Ok ∧
    tableEntries markingCodec (((init 4096 .snappy true [.full,.full,.full,.full,.error]).addAll markingCodec
      straddlingEntries).finish markingCodec).2.file.content = none := by
  decide +kernel

end SSTableBuilder
end TitanKV.Minikv
