import TitanKV.Minikv.SSTableFile

/-! The data blocks that a builder cuts its entries into, the file that it makes of them when no call
fails, and the reader over that file. Sizes matter to the reader only, which goes by what the fields of
the file hold of them. -/
namespace TitanKV.Minikv
open List BlockBuilder Holds

/-- The data blocks that a builder makes of the entries, from the block it is filling on. -/
def dataBlocks (blockSize : ℕ) : BlockBuilder → List KeyValue → List BlockBuilder
  | b,[] => if b.empty then [] else [b]
  | b,e::es =>
    if blockSize≤(b.add e.1 e.2).size then b.add e.1 e.2::dataBlocks blockSize .init es
    else dataBlocks blockSize (b.add e.1 e.2) es

section Blocks
variable {blockSize : ℕ} {b : BlockBuilder} {current es : List KeyValue}

lemma BlockBuilder.empty_add (b : BlockBuilder) (key value : Bytes) : (b.add key value).empty = false := by
  have hpos : ∀ shared, encodeEntry shared key value ≠ [] := by
    intro shared hnil
    have hlen := length_encodeVariant32_pos shared
    simp only [encodeEntry,append_eq_nil_iff] at hnil
    rw [hnil.1.1.1.1] at hlen
    simp at hlen
  rw [empty,add]
  split
  · simp [hpos]
  · simp [hpos]

lemma BlockBuilder.lastKey_add (b : BlockBuilder) (key value : Bytes) : (b.add key value).lastKey = key := by
  rw [add]
  split <;> rfl

lemma BlockBuilder.finish_ne_nil (b : BlockBuilder) : b.finish.buffer ≠ [] := by
  intro hnil
  have hlen := length_finish b
  rw [hnil,length_nil] at hlen
  omega

lemma BlockBuilder.Holds.of_mem_dataBlocks (h : b.Holds current) {x : BlockBuilder}
    (hx : x ∈ dataBlocks blockSize b es) : ∃ part, x.Holds part ∧ part ≠ [] := by
  induction es generalizing b current with
  | nil =>
    rw [dataBlocks] at hx
    split at hx
    · simp at hx
    · rename_i hempty
      rw [mem_singleton.mp hx]
      exact ⟨current,h,fun hnil => hempty (h.empty_iff.mpr hnil)⟩
  | cons e es ih =>
    have hadd := h.add e.1 e.2
    rw [dataBlocks] at hx
    split at hx
    · rcases mem_cons.mp hx with rfl | hx
      · exact ⟨_,hadd,by simp⟩
      · exact ih .init hx
    · exact ih hadd hx

lemma BlockBuilder.Holds.flatMap_dataBlocks (h : b.Holds current)
    (hfit : ∀ x ∈ dataBlocks blockSize b es, x.finish.buffer.length<2^32) :
    ((dataBlocks blockSize b es).flatMap fun x => forEach x.finish.buffer) = current++es := by
  induction es generalizing b current with
  | nil =>
    rw [dataBlocks] at hfit ⊢
    split
    · rename_i hempty
      rw [h.empty_iff.mp hempty]
      rfl
    · rename_i hempty
      rw [if_neg hempty] at hfit
      rw [flatMap_singleton,h.forEach_finish (hfit b (by simp)),append_nil]
  | cons e es ih =>
    have hadd := h.add e.1 e.2
    have hsplit : current++e::es = current++[(e.1,e.2)]++es := by simp
    rw [dataBlocks] at hfit ⊢
    split
    · rename_i hfull
      rw [if_pos hfull] at hfit
      rw [flatMap_cons,hadd.forEach_finish (hfit _ (by simp)),
        ih .init fun x hx => hfit x (by simp [hx]),hsplit]
      rfl
    · rename_i hfull
      rw [if_neg hfull] at hfit
      rw [ih hadd hfit,hsplit]

lemma BlockBuilder.Holds.sum_dataBlocks_le {size : BlockBuilder → ℕ}
    (hsize : ∀ {x : BlockBuilder} {part : List KeyValue}, x.Holds part → part ≠ [] → size x ≤ totalSize part)
    (h : b.Holds current) : ((dataBlocks blockSize b es).map size).sum ≤ totalSize (current++es) := by
  induction es generalizing b current with
  | nil =>
    rw [dataBlocks,append_nil]
    split
    · exact Nat.zero_le _
    · rename_i hempty
      exact hsize h fun hnil => hempty (h.empty_iff.mpr hnil)
  | cons e es ih =>
    have hadd := h.add e.1 e.2
    have hsplit : current++e::es = current++[(e.1,e.2)]++es := by simp
    rw [dataBlocks,hsplit]
    split
    · have hblock := hsize hadd (by simp)
      have hrest := ih .init
      rw [nil_append] at hrest
      rw [map_cons,sum_cons,totalSize_append]
      omega
    · exact ih hadd

end Blocks

variable (codec : Codec)

def storedBlock (compression : CompressionType) (b : BlockBuilder) : Bytes :=
  let stored := blockPayload codec compression b.finish.buffer
  blockHeader stored.1 b.finish.buffer.length stored.2 ++ stored.1

/-- The blocks with their places, the first at `offset`. -/
def placeBlocks (compression : CompressionType) : ℕ → List BlockBuilder → List PlacedBlock
  | _,[] => []
  | offset,b::bs =>
    (forEach b.finish.buffer,⟨b.lastKey,⟨offset,(storedBlock codec compression b).length⟩⟩)::
      placeBlocks compression (offset+(storedBlock codec compression b).length) bs

def placedIndex (blocks : List PlacedBlock) : Bytes := blocks.flatMap fun x => indexEntry x.2.lastKey x.2.handle

section Placed
variable {codec} {compression : CompressionType} {bs more : List BlockBuilder}

variable (offset : ℕ)

lemma placeBlocks_append : placeBlocks codec compression offset (bs++more) =
    placeBlocks codec compression offset bs ++
      placeBlocks codec compression (offset+(bs.flatMap (storedBlock codec compression)).length) more := by
  induction bs generalizing offset with
  | nil => rfl
  | cons b bs ih =>
    rw [cons_append,placeBlocks,ih,placeBlocks,cons_append,flatMap_cons,length_append,
      Nat.add_assoc]

lemma placedIndex_append (blocks blocks' : List PlacedBlock) :
    placedIndex (blocks++blocks') = placedIndex blocks ++ placedIndex blocks' := by
  simp [placedIndex]

lemma length_placedIndex : (placedIndex (placeBlocks codec compression offset bs)).length =
    (bs.map fun b => (indexEntry b.lastKey ⟨0,0⟩).length).sum := by
  induction bs generalizing offset with
  | nil => rfl
  | cons b bs ih =>
    have hrest := ih (offset+(storedBlock codec compression b).length)
    rw [placedIndex] at hrest
    simp only [placedIndex,placeBlocks,flatMap_cons,length_append,hrest,map_cons,sum_cons]
    simp [indexEntry]

lemma placedEntries_placeBlocks : placedEntries (placeBlocks codec compression offset bs) =
    bs.flatMap fun b => forEach b.finish.buffer := by
  induction bs generalizing offset with
  | nil => rfl
  | cons b bs ih =>
    have hrest := ih (offset+(storedBlock codec compression b).length)
    rw [placedEntries] at hrest
    simp only [placedEntries,placeBlocks,flatMap_cons,hrest]

lemma mem_placeBlocks {offset : ℕ} {x : PlacedBlock} (hx : x ∈ placeBlocks codec compression offset bs) :
    ∃ b ∈ bs, x.1 = forEach b.finish.buffer ∧ x.2.lastKey = b.lastKey := by
  induction bs generalizing offset with
  | nil => simp [placeBlocks] at hx
  | cons b bs ih =>
    rcases mem_cons.mp hx with rfl | hx
    · exact ⟨b,by simp,rfl,rfl⟩
    · obtain ⟨b',hb,hsame⟩ := ih hx
      exact ⟨b',by simp [hb],hsame⟩

lemma length_storedBlock_le (b : BlockBuilder) :
    (storedBlock codec compression b).length≤13+b.finish.buffer.length := by
  have hspec := (@blockPayload_spec codec compression _ b.finish_ne_nil).2.2
  simp only [storedBlock,length_append,length_blockHeader]
  omega

/-- A block of the file is where its place says, and the reader gets it back. -/
lemma storedAt_storedBlock {b : BlockBuilder} (hfit : b.finish.buffer.length<2^32) {front : Bytes}
    (hfront : front.length<2^63) (rest : Bytes) :
    StoredAt codec (front++(storedBlock codec compression b ++ rest))
      ⟨front.length,(storedBlock codec compression b).length⟩ b.finish.buffer := by
  obtain ⟨hback,hpayload,hlen⟩ := @blockPayload_spec codec compression _ b.finish_ne_nil
  refine ⟨⟨front,_,_,rest,?_,?_,hfront,hpayload,by omega,hback⟩,hfit⟩
  · simp only [storedBlock,append_assoc]
  · simp only [storedBlock,length_append,length_blockHeader]

lemma stored_placeBlocks (hfit : ∀ b ∈ bs, b.finish.buffer.length<2^32) {front : Bytes}
    (hfront : (front ++ bs.flatMap (storedBlock codec compression)).length<2^63) :
    ∀ x ∈ placeBlocks codec compression front.length bs, ∃ raw,
      StoredAt codec (front ++ bs.flatMap (storedBlock codec compression)) x.2.handle raw ∧ forEach raw = x.1 := by
  induction bs generalizing front with
  | nil => simp [placeBlocks]
  | cons b bs ih =>
    intro x hx
    have hlen : front.length+(storedBlock codec compression b).length =
        (front ++ storedBlock codec compression b).length := length_append.symm
    rw [placeBlocks,hlen] at hx
    rw [flatMap_cons] at hfront ⊢
    rcases mem_cons.mp hx with rfl | hx
    · refine ⟨_,storedAt_storedBlock (hfit b (by simp)) ?_ _,rfl⟩
      rw [length_append] at hfront
      omega
    · rw [← append_assoc] at hfront ⊢
      exact ih (fun b' hb => hfit b' (by simp [hb])) hfront x hx

lemma length_flatMap_storedBlock_le (hfit : ∀ b ∈ bs, b.finish.buffer.length<2^32) :
    (bs.flatMap (storedBlock codec compression)).length ≤
      2^29*(bs.map fun b => (indexEntry b.lastKey ⟨0,0⟩).length).sum := by
  induction bs with
  | nil => simp
  | cons b bs ih =>
    have hrest := ih fun b' hb => hfit b' (by simp [hb])
    have hblock := hfit b (by simp)
    have hstored := @length_storedBlock_le codec compression b
    have hentry : 16≤(indexEntry b.lastKey ⟨0,0⟩).length := by
      simp only [indexEntry,length_append,length_encodeFixed64]
      omega
    rw [flatMap_cons,length_append,map_cons,sum_cons]
    omega

lemma handle_placeBlocks {offset : ℕ} {x : PlacedBlock} (hx : x ∈ placeBlocks codec compression offset bs) :
    x.2.handle.offset+x.2.handle.size ≤ offset+(bs.flatMap (storedBlock codec compression)).length := by
  induction bs generalizing offset with
  | nil => simp [placeBlocks] at hx
  | cons b bs ih =>
    rw [flatMap_cons,length_append]
    rcases mem_cons.mp hx with rfl | hx
    · dsimp only
      omega
    · have := ih hx
      omega

end Placed

/-- A builder whose calls succeed, between two of them. -/
structure SSTableBuilder.Steady (b : SSTableBuilder) : Prop where
  healthy : b.file.Healthy
  offset : b.offset = b.file.content.length
  lastKey : b.dataBlock.empty = false → b.lastKey = b.dataBlock.lastKey

/-- By writing these blocks, `b` becomes `b'`. -/
structure SSTableBuilder.Wrote (b : SSTableBuilder) (bs : List BlockBuilder) (b' : SSTableBuilder) : Prop where
  steady : b'.Steady
  content : b'.file.content = b.file.content ++ bs.flatMap (storedBlock codec b.compression)
  index : b'.indexBlock = b.indexBlock ++ placedIndex (placeBlocks codec b.compression b.offset bs)
  compression : b'.compression = b.compression
  blockSize : b'.blockSize = b.blockSize

namespace SSTableBuilder
variable {codec} {b b' b'' : SSTableBuilder} {bs more : List BlockBuilder}

variable {outcomes : List WriteOutcome}

lemma Steady.init (blockSize : ℕ) (compression : CompressionType)
    (h : ∀ o ∈ outcomes, o = .full) : (init blockSize compression true outcomes).Steady :=
  ⟨⟨rfl,h⟩,rfl,fun _ => rfl⟩

lemma Wrote.trans (hb : b.Steady) (h : b.Wrote codec bs b') (h' : b'.Wrote codec more b'') :
    b.Wrote codec (bs++more) b'' := by
  have hcontent := h.content
  have hoffset : b'.offset = b.offset+(bs.flatMap (storedBlock codec b.compression)).length := by
    rw [h.steady.offset,hcontent,length_append,hb.offset]
  refine ⟨h'.steady,?_,?_,h'.compression.trans h.compression,h'.blockSize.trans h.blockSize⟩
  · rw [h'.content,hcontent,h.compression,flatMap_append,append_assoc]
  · rw [h'.index,h.index,h.compression,hoffset,placeBlocks_append,placedIndex_append,append_assoc]

lemma Steady.flushDataBlock (h : b.Steady) (hne : b.dataBlock.empty = false) :
    (b.flushDataBlock codec).1 = .Ok ∧ b.Wrote codec [b.dataBlock] (b.flushDataBlock codec).2 ∧
      (b.flushDataBlock codec).2.dataBlock = .init := by
  obtain ⟨⟨payload,used⟩,hpayload⟩ :
    ∃ stored, blockPayload codec b.compression b.dataBlock.finish.buffer = stored := ⟨_,rfl⟩
  obtain ⟨f,hhealthy,hcontent,hflush⟩ := flushDataBlock_eq h.healthy (by simp [hne]) rfl hpayload
  have hstored : storedBlock codec b.compression b.dataBlock =
      blockHeader payload b.dataBlock.finish.buffer.length used ++ payload := by
    rw [storedBlock,hpayload]
  rw [hflush]
  refine ⟨rfl,⟨⟨hhealthy,?_,fun hempty => by cases hempty⟩,?_,?_,rfl,rfl⟩,rfl⟩
  · rw [hcontent,h.offset]
    simp only [length_append,length_blockHeader]
    omega
  · rw [hcontent,flatMap_singleton,hstored]
  · simp only [placeBlocks,placedIndex,flatMap_singleton,hstored,length_append,length_blockHeader,
      h.lastKey hne]

lemma Steady.add (h : b.Steady) (e : KeyValue) : (b.add codec e.1 e.2).1 = .Ok ∧ ∃ bs,
    b.Wrote codec bs (b.add codec e.1 e.2).2 ∧ ∀ es, dataBlocks b.blockSize b.dataBlock (e::es) =
      bs ++ dataBlocks b.blockSize (b.add codec e.1 e.2).2.dataBlock es := by
  have hadded : Steady { b with dataBlock := b.dataBlock.add e.1 e.2, lastKey := e.1 } :=
    ⟨h.healthy,h.offset,fun _ => (b.dataBlock.lastKey_add e.1 e.2).symm⟩
  rw [SSTableBuilder.add]
  split
  · rename_i hfull
    obtain ⟨hstatus,hwrote,hinit⟩ := @Steady.flushDataBlock codec _ hadded (b.dataBlock.empty_add e.1 e.2)
    refine ⟨hstatus,_,{ hwrote with },fun es => ?_⟩
    rw [dataBlocks,if_pos hfull,hinit]
    rfl
  · rename_i hfull
    refine ⟨rfl,[],⟨hadded,by simp,by simp [placeBlocks,placedIndex],rfl,rfl⟩,fun es => ?_⟩
    rw [dataBlocks,if_neg hfull]
    rfl

lemma Steady.addAll (h : b.Steady) (es : List KeyValue) : ∃ bs, b.Wrote codec bs (b.addAll codec es) ∧
    dataBlocks b.blockSize b.dataBlock es = bs ++ dataBlocks b.blockSize (b.addAll codec es).dataBlock [] := by
  induction es generalizing b with
  | nil => exact ⟨[],
      ⟨h,by simp [SSTableBuilder.addAll],by simp [SSTableBuilder.addAll,placeBlocks,placedIndex],rfl,rfl⟩,rfl⟩
  | cons e es ih =>
    obtain ⟨-,bs,hadd,hblocks⟩ := @Steady.add codec b h e
    obtain ⟨more,hall,hmore⟩ := ih hadd.steady
    refine ⟨bs++more,hadd.trans h hall,?_⟩
    rw [hadd.blockSize] at hmore
    rw [hblocks,hmore,append_assoc]
    rfl

lemma Steady.finish (h : b.Steady) (hopen : b.finished = false) :
    ∃ b', b.Wrote codec (dataBlocks b.blockSize b.dataBlock []) b' ∧ (b.finish codec).1 = .Ok ∧
      (b.finish codec).2.file.content = b'.file.content ++
        (indexHeader b'.indexBlock ++ (b'.indexBlock ++ footer b'.file.content.length b'.indexBlock.length)) := by
  have hclosed : Steady { b with finished := true } := { h with }
  obtain ⟨b',hb'⟩ : ∃ b', ({ b with finished := true }.flushDataBlock codec).2 = b' := ⟨_,rfl⟩
  have hwrote : b.Wrote codec (dataBlocks b.blockSize b.dataBlock []) b' := by
    rw [dataBlocks,← hb']
    split
    · rename_i hempty
      rw [SSTableBuilder.flushDataBlock,if_pos hempty]
      exact ⟨hclosed,by simp,by simp [placeBlocks,placedIndex],rfl,rfl⟩
    · rename_i hempty
      obtain ⟨-,hw,-⟩ := @Steady.flushDataBlock codec _ hclosed (by simpa using hempty)
      exact { hw with }
  exact ⟨b',hwrote,finish_eq hopen hb' hwrote.steady.healthy hwrote.steady.offset⟩

/-- The file of a whole table: the blocks of its entries, the index and the footer. -/
theorem finish_addAll (codec : Codec) (blockSize : ℕ) (compression : CompressionType)
    (hfull : ∀ o ∈ outcomes, o = .full) (es : List KeyValue) {data index : Bytes}
    (hdata : data = (dataBlocks blockSize .init es).flatMap (storedBlock codec compression))
    (hindex : index = placedIndex (placeBlocks codec compression 0 (dataBlocks blockSize .init es))) :
    (((init blockSize compression true outcomes).addAll codec es).finish codec).1 = .Ok ∧
      (((init blockSize compression true outcomes).addAll codec es).finish codec).2.file.content =
        data++(indexHeader index ++ (index ++ footer data.length index.length)) := by
  have hinit := Steady.init blockSize compression hfull
  obtain ⟨bs,hadd,hblocks⟩ := @Steady.addAll codec _ hinit es
  obtain ⟨b',hlast,hstatus,hcontent⟩ := @Steady.finish codec _ hadd.steady (finished_addAll codec _ es)
  rw [hadd.blockSize] at hlast
  have hwrote := hadd.trans hinit hlast
  rw [← hblocks] at hwrote
  have hd : b'.file.content = data := by
    rw [hdata]
    exact hwrote.content
  have hi : b'.indexBlock = index := by
    rw [hindex]
    exact hwrote.index
  rw [hd,hi] at hcontent
  exact ⟨hstatus,hcontent⟩

end SSTableBuilder

/-- A block has entries, and its place in the index is under the last of them. -/
def EndsWithLastKey (x : PlacedBlock) : Prop := ∃ front e, x.1 = front++[e] ∧ x.2.lastKey = e.1

/-- A reader over a file in which the blocks are stored, each under its last key. -/
structure SSTableReader.Over (codec : Codec) (r : SSTableReader) (blocks : List PlacedBlock) : Prop where
  index : r.indexEntries = blocks.map Prod.snd
  stored : ∃ content pos, r.file = ⟨content,pos,[]⟩ ∧
    ∀ x ∈ blocks, ∃ raw, StoredAt codec content x.2.handle raw ∧ forEach raw = x.1
  ends : ∀ x ∈ blocks, EndsWithLastKey x

variable {blocks : List PlacedBlock}

lemma SSTableReader.Over.scan {codec : Codec} {r : SSTableReader} (h : r.Over codec blocks) :
    r.scan codec [] [] = (.Ok,placedEntries blocks) := by
  obtain ⟨content,pos,hfile,hstored⟩ := h.stored
  rw [SSTableReader.scan,h.index,hfile,scanBlocks_stored hstored]

/-- The sizes that a table stores in 32 bits: those of the data blocks before compression, with
the keys and values in them, and that of the index. -/
structure SizesBelow (bound blockSize : ℕ) (es : List KeyValue) : Prop where
  blocks : ∀ b ∈ dataBlocks blockSize .init es, b.finish.buffer.length<bound
  index : ((dataBlocks blockSize .init es).map fun b => (indexEntry b.lastKey ⟨0,0⟩).length).sum<bound

variable {es : List KeyValue}

lemma SizesBelow.mono {bound bound' blockSize : ℕ} (h : SizesBelow bound blockSize es)
    (hle : bound≤bound') : SizesBelow bound' blockSize es :=
  ⟨fun b hb => (h.blocks b hb).trans_le hle,h.index.trans_le hle⟩

lemma SizesBelow.of_totalSize {bound : ℕ} (h : totalSize es<bound) (blockSize : ℕ) :
    SizesBelow bound blockSize es := by
  have hblocks : ((dataBlocks blockSize .init es).map fun b => b.finish.buffer.length).sum ≤ totalSize es :=
    init.sum_dataBlocks_le length_finish_le
  have hindex : ((dataBlocks blockSize .init es).map fun b => (indexEntry b.lastKey ⟨0,0⟩).length).sum ≤
      totalSize es := by
    refine init.sum_dataBlocks_le fun {x part} hholds hne => ?_
    obtain ⟨v,hmem⟩ := lastKeyOf_mem hne
    have hentry := length_indexEntry x.lastKey ⟨0,0⟩
    have hle := entrySize_le_totalSize hmem
    rw [← hholds.lastKey,entrySize] at hle
    dsimp only at hle
    omega
  refine ⟨fun b hb => ?_,hindex.trans_lt h⟩
  have hone := single_le_sum (fun _ _ => Nat.zero_le _) _
    (mem_map_of_mem (f := fun b : BlockBuilder => b.finish.buffer.length) hb)
  omega

variable {compression : CompressionType}

lemma endsWithLastKey_placeBlocks {codec : Codec} {blockSize offset : ℕ}
    (hfit : ∀ b ∈ dataBlocks blockSize .init es, b.finish.buffer.length<2^32) {x : PlacedBlock}
    (hx : x ∈ placeBlocks codec compression offset (dataBlocks blockSize .init es)) :
    EndsWithLastKey x ∧ x.2.lastKey.length<2^32 := by
  obtain ⟨b,hb,hentries,hlast⟩ := mem_placeBlocks hx
  obtain ⟨part,hholds,hne⟩ := init.of_mem_dataBlocks hb
  have hsize := hfit b hb
  have hlen := length_finish b
  have hkey : lastKeyOf [] part = (part.getLast hne).1 := by
    rw [lastKeyOf,getLast?_eq_some_getLast hne]
    rfl
  have hbound := (hholds.encoded.length_le (getLast_mem hne)).1
  rw [length_nil] at hbound
  rw [hholds.forEach_finish hsize] at hentries
  rw [hholds.lastKey,hkey] at hlast
  refine ⟨⟨part.dropLast,part.getLast hne,?_,hlast⟩,?_⟩
  · rw [hentries,dropLast_append_getLast hne]
  · rw [hlast]
    omega

/-- What stands in the file of a table fits into its fields. -/
lemma SizesBelow.placed {codec : Codec} {blockSize : ℕ} (hsizes : SizesBelow (2^32) blockSize es) {data : Bytes}
    (hdata : data = (dataBlocks blockSize .init es).flatMap (storedBlock codec compression))
    (hblocks : blocks = placeBlocks codec compression 0 (dataBlocks blockSize .init es)) :
    (placedIndex blocks).length<2^32 ∧ data.length<2^62 ∧ ∀ e ∈ blocks.map Prod.snd,
      e.lastKey.length<2^32 ∧ e.handle.offset<2^64 ∧ e.handle.size<2^64 := by
  have hindexSize : (placedIndex blocks).length<2^32 := by
    rw [hblocks,length_placedIndex]
    exact hsizes.index
  have hdataSize : data.length<2^62 := by
    have hle := @length_flatMap_storedBlock_le codec compression _ hsizes.blocks
    have hindex := hsizes.index
    rw [hdata]
    omega
  refine ⟨hindexSize,hdataSize,fun e he => ?_⟩
  obtain ⟨x,hx,rfl⟩ := mem_map.mp he
  rw [hblocks] at hx
  have hkey := (endsWithLastKey_placeBlocks hsizes.blocks hx).2
  have hplace := handle_placeBlocks hx
  rw [← hdata] at hplace
  omega

/-- A table that was built without a failing call is opened by a reader over the blocks of its entries. -/
lemma SSTableBuilder.exists_over (codec : Codec) (blockSize : ℕ) (compression : CompressionType)
    {outcomes : List WriteOutcome} (hfull : ∀ o ∈ outcomes, o = .full)
    (hsizes : SizesBelow (2^32) blockSize es) :
    (((SSTableBuilder.init blockSize compression true outcomes).addAll codec es).finish codec).1 = .Ok ∧
      ∃ r, SSTableReader.openFile true (some (((SSTableBuilder.init blockSize compression true outcomes).addAll
          codec es).finish codec).2.file.content) [] = some r ∧
        r.Over codec (placeBlocks codec compression 0 (dataBlocks blockSize .init es)) ∧
        placedEntries (placeBlocks codec compression 0 (dataBlocks blockSize .init es)) = es := by
  have hfit := hsizes.blocks
  obtain ⟨data,hdata⟩ : ∃ data, data = (dataBlocks blockSize .init es).flatMap (storedBlock codec compression) :=
    ⟨_,rfl⟩
  obtain ⟨blocks,hblocks⟩ : ∃ blocks, blocks = placeBlocks codec compression 0 (dataBlocks blockSize .init es) :=
    ⟨_,rfl⟩
  obtain ⟨hindexSize,hdataSize,hhandles⟩ := hsizes.placed hdata hblocks
  have hends : ∀ x ∈ blocks, EndsWithLastKey x := by
    intro x hx
    rw [hblocks] at hx
    exact (endsWithLastKey_placeBlocks hfit hx).1
  have hstored : ∀ x ∈ blocks, ∃ raw, StoredAt codec data x.2.handle raw ∧ forEach raw = x.1 := by
    have hall := @stored_placeBlocks codec compression _ hfit [] (by
      rw [nil_append,← hdata]
      omega)
    rw [nil_append,← hdata] at hall
    rw [hblocks]
    exact hall
  have hentries : placedEntries blocks = es := by
    rw [hblocks,placedEntries_placeBlocks,Holds.init.flatMap_dataBlocks hfit,nil_append]
  have hindex : placedIndex blocks = (blocks.map Prod.snd).flatMap fun e => indexEntry e.lastKey e.handle := by
    rw [placedIndex,flatMap_map]
  obtain ⟨hstatus,hcontent⟩ := SSTableBuilder.finish_addAll codec blockSize compression hfull es hdata
    (congrArg placedIndex hblocks)
  obtain ⟨r,pos,hopen,hrindex,hrfile⟩ := openFile_finished hindex hindexSize hdataSize hhandles hcontent
  rw [← hblocks]
  refine ⟨hstatus,r,hopen,⟨hrindex,⟨_,pos,hrfile,?_⟩,hends⟩,hentries⟩
  rw [hcontent]
  exact fun x hx => (hstored x hx).imp fun raw hraw => ⟨hraw.1.append _,hraw.2⟩

/-- A table that was built without a failing call is read back entry by entry. -/
theorem tableEntries_build {codec : Codec} (blockSize : ℕ) (compression : CompressionType)
    {outcomes : List WriteOutcome} (hfull : ∀ o ∈ outcomes, o = .full) (hfit : totalSize es<2^32) :
    tableEntries codec (((SSTableBuilder.init blockSize compression true outcomes).addAll codec es).finish
      codec).2.file.content = some es := by
  obtain ⟨-,r,hopen,hover,hentries⟩ :=
    SSTableBuilder.exists_over codec blockSize compression hfull (.of_totalSize hfit blockSize)
  rw [tableEntries,hopen,Option.bind_some,hover.scan,hentries]
  rfl

end TitanKV.Minikv
