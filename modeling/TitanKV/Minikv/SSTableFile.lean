import TitanKV.Minikv.SSTableReader

/-! The pieces of an SSTable file, and how the reader gets them back: a block behind its handle, the
index and the footer. -/
namespace TitanKV.Minikv
open Parsing List SSTableBuilder InFile

variable (codec : Codec)

/-- A block stands behind this handle, and it decodes to `raw`. -/
structure StoredAt (content : Bytes) (h : BlockHandle) (raw : Bytes) : Prop where
  layout : ∃ front payload used rest,
    content = front++(blockHeader payload raw.length used ++ (payload++rest)) ∧
    h = ⟨front.length,13+payload.length⟩ ∧ front.length<2^63 ∧ payload ≠ [] ∧ payload.length<2^32 ∧
    decompressBlock codec (.ofCode used.code) payload raw.length = .ok raw
  fits : raw.length<2^32

variable {codec} {content raw : Bytes} {h : BlockHandle}

lemma StoredAt.append (hs : StoredAt codec content h raw) (more : Bytes) :
    StoredAt codec (content++more) h raw := by
  obtain ⟨⟨front,payload,used,rest,rfl,hlayout⟩,hfit⟩ := hs
  exact ⟨⟨front,payload,used,rest++more,by simp only [append_assoc],hlayout⟩,hfit⟩

section Header
variable (payload : Bytes) (size : ℕ) (used : CompressionType)

lemma decode_blockHeader_crc : decodeFixed32 (blockHeader payload size used) =
    (crc32c payload (toInt payload.length)).toNat := by
  simp only [blockHeader,append_assoc,decodeFixed32_encode]
  exact Nat.mod_eq_of_lt (UInt32.toNat_lt _)

lemma decode_blockHeader_length (hfit : payload.length<2^32) :
    decodeFixed32 ((blockHeader payload size used).drop 4) = payload.length := by
  simp only [blockHeader,append_assoc]
  rw [drop_left' (length_encodeFixed32 _),decodeFixed32_encode,Nat.mod_eq_of_lt hfit]

lemma decode_blockHeader_size (hfit : size<2^32) :
    decodeFixed32 ((blockHeader payload size used).drop 8) = size := by
  have hcut : blockHeader payload size used =
      (encodeFixed32 (crc32c payload (toInt payload.length)).toNat ++ encodeFixed32 payload.length) ++
        (encodeFixed32 size ++ [used.code]) := by
    simp only [blockHeader,append_assoc]
  rw [hcut,drop_left' (by simp),decodeFixed32_encode,Nat.mod_eq_of_lt hfit]

lemma blockHeader_type : (blockHeader payload size used).getD 12 0 = used.code := by
  rw [blockHeader,getD_eq_getElem?_getD,getElem?_append_right (by simp)]
  simp

end Header

/-- A stored block is read back, from wherever the file stands. -/
lemma StoredAt.readBlock (hs : StoredAt codec content h raw) (pos : ℕ) :
    ∃ pos', readBlock codec ⟨content,pos,[]⟩ h = (.ok raw,⟨content,pos',[]⟩) := by
  obtain ⟨⟨front,payload,used,rest,hlayout,rfl,hfront,hne,hpayload,hdecompress⟩,hfit⟩ := hs
  have hheader := readFull_eq hlayout rfl (length_blockHeader payload raw.length used)
  have hdata : (⟨content,front.length+13,[]⟩ : InFile).readFull payload.length =
      (some payload,⟨content,front.length+13+payload.length,[]⟩) :=
    readFull_eq (hlayout.trans (append_assoc _ _ _).symm) (by simp) rfl
  have hlength := decode_blockHeader_length payload raw.length used hpayload
  have hpos : payload.length ≠ 0 := fun hz => hne (length_eq_zero_iff.mp hz)
  refine ⟨front.length+13+payload.length,?_⟩
  rw [Minikv.readBlock,if_neg (by simp [kSSTableBlockHeader]),lseek_eq pos [] hfront]
  simp only [kSSTableBlockHeader,hheader,hlength,if_neg hpos,hdata,decode_blockHeader_crc,
    decode_blockHeader_size payload raw.length used hfit,blockHeader_type,hdecompress,ne_eq,
    not_true_eq_false,if_false]

variable {es : List KeyValue}

lemma Encoded.ne_nil {lastKey bs : Bytes} (h : Encoded lastKey es bs) (hne : es ≠ []) :
    bs ≠ [] := by
  cases h with
  | nil => exact (hne rfl).elim
  | @cons _ key value bs es shared _ _ _ =>
    have hpos := length_encodeVariant32_pos shared
    intro hnil
    have hlen := congrArg length hnil
    simp only [encodeEntry,length_append,length_nil] at hlen
    omega

lemma BlockBuilder.Holds.empty_iff {b : BlockBuilder} (h : b.Holds es) :
    b.empty = true ↔ es = [] := by
  rw [BlockBuilder.empty,List.isEmpty_iff]
  constructor
  · intro hnil
    by_contra hne
    exact h.encoded.ne_nil hne hnil
  · rintro rfl
    have hsize := h.size
    exact length_eq_zero_iff.mp (Nat.le_zero.mp hsize)

abbrev PlacedBlock := List KeyValue × IndexEntry

def placedEntries (blocks : List PlacedBlock) : List KeyValue := blocks.flatMap Prod.fst

lemma lastKeyOf_mem (hne : es ≠ []) : ∃ v, (lastKeyOf [] es,v) ∈ es := by
  refine ⟨(es.getLast hne).2,?_⟩
  rw [lastKeyOf,getLast?_eq_some_getLast hne]
  exact getLast_mem hne

lemma length_indexEntry (key : Bytes) (h : BlockHandle) : (indexEntry key h).length≤key.length+21 := by
  have := length_encodeVariant32_le key.length
  simp only [indexEntry,length_append,length_encodeFixed64]
  omega

lemma SSTableBuilder.flushDataBlock_eq {b : SSTableBuilder} (h : b.file.Healthy) (hne : ¬ b.dataBlock.empty = true)
    {raw payload : Bytes} {used : CompressionType} (hraw : b.dataBlock.finish.buffer = raw)
    (hstored : blockPayload codec b.compression raw = (payload,used)) :
    ∃ f : OutFile, f.Healthy ∧ f.content = b.file.content++(blockHeader payload raw.length used ++ payload) ∧
      b.flushDataBlock codec = (.Ok,{ b with
        file := f
        dataBlock := .init
        indexBlock := b.indexBlock ++ indexEntry b.lastKey ⟨b.offset,13+payload.length⟩
        offset := b.offset+13+payload.length }) := by
  obtain ⟨hret₁,hcontent₁,hhealthy₁⟩ := h.write (blockHeader payload raw.length used)
  obtain ⟨hret₂,hcontent₂,hhealthy₂⟩ := hhealthy₁.write payload
  rw [length_blockHeader] at hret₁
  refine ⟨_,hhealthy₂,by rw [hcontent₂,hcontent₁,append_assoc],?_⟩
  rw [flushDataBlock,if_neg hne]
  simp only [hraw,hstored,hret₁,hret₂,kSSTableBlockHeader,ne_eq,not_true_eq_false,if_false]

section Finished
variable (codec) (b : SSTableBuilder)

@[simp] theorem finished_flushDataBlock : (b.flushDataBlock codec).2.finished = b.finished := by
  simp only [flushDataBlock]
  split
  · rfl
  · split
    · rfl
    · split <;> rfl

@[simp] theorem finished_addAll (es : List KeyValue) : (b.addAll codec es).finished = b.finished := by
  induction es generalizing b with
  | nil => rfl
  | cons e es ih =>
    have hadd : (b.add codec e.1 e.2).2.finished = b.finished := by
      simp only [add]
      split
      · exact finished_flushDataBlock codec _
      · rfl
    exact (ih _).trans hadd

end Finished

lemma finish_eq {b b₁ : SSTableBuilder} (hopen : b.finished = false)
    (hflush : ({ b with finished := true }.flushDataBlock codec).2 = b₁) (hhealthy : b₁.file.Healthy)
    (hoffset : b₁.offset = b₁.file.content.length) :
    (b.finish codec).1 = .Ok ∧ (b.finish codec).2.file.content = b₁.file.content ++
      (indexHeader b₁.indexBlock ++ (b₁.indexBlock ++ footer b₁.file.content.length b₁.indexBlock.length)) := by
  simp only [finish,hopen,Bool.false_eq_true,if_false,hflush]
  obtain ⟨hret₁,hcontent₁,hhealthy₁⟩ := hhealthy.write (indexHeader b₁.indexBlock)
  obtain ⟨hret₂,hcontent₂,hhealthy₂⟩ := hhealthy₁.write b₁.indexBlock
  rw [if_neg (by rw [hret₁,hret₂]; simp)]
  refine ⟨rfl,?_⟩
  simp only [writeFooter]
  obtain ⟨-,hcontent₃,-⟩ := hhealthy₂.write
    (footer (b₁.offset+8+b₁.indexBlock.length-(8+b₁.indexBlock.length)) b₁.indexBlock.length)
  have hback : b₁.offset+8+b₁.indexBlock.length-(8+b₁.indexBlock.length) = b₁.offset := by omega
  rw [hcontent₃,hcontent₂,hcontent₁,hback,hoffset]
  simp only [append_assoc]

section Footer
variable (indexOffset indexLength : ℕ)

lemma decode_footer_offset : decodeFixed64 (footer indexOffset indexLength) = indexOffset % 2^64 := by
  simp only [footer,append_assoc,decodeFixed64_encode]

lemma footer_version : (footer indexOffset indexLength).getD 16 0 = 1 := by
  rw [footer,append_assoc,append_assoc,getD_eq_getElem?_getD,
    getElem?_append_right (by simp)]
  simp [kSSTableFormatVersion]

lemma decode_footer_magic : decodeFixed64 ((footer indexOffset indexLength).drop 40) = kSSTableMagic := by
  have hmagic := decodeFixed64_encode kSSTableMagic []
  rw [append_nil] at hmagic
  rfl

end Footer

lemma decode_indexHeader {index : Bytes} (h : index.length<2^32) :
    decodeFixed32 ((indexHeader index).drop 4) = index.length := by
  have hlength := decodeFixed32_encode index.length []
  rw [append_nil,Nat.mod_eq_of_lt h] at hlength
  rw [indexHeader,drop_left' (length_encodeFixed32 _),hlength]

lemma readIndexEntry_consumes : Consumes readIndexEntry := by
  intro s e rest h
  rw [readIndexEntry] at h
  split at h
  · cases h
  · rename_i keyLen consumed hd
    have hn := decodeVariant32_consumed hd
    simp only [Option.some.injEq,Prod.mk.injEq] at h
    rw [← h.2]
    simp only [length_drop]
    omega

lemma readIndexEntry_indexEntry {key : Bytes} {h : BlockHandle} (hkey : key.length<2^32)
    (hoffset : h.offset<2^64) (hsize : h.size<2^64) (rest : Bytes) :
    readIndexEntry (indexEntry key h ++ rest) = some (⟨key,h⟩,rest) := by
  have hlayout : indexEntry key h ++ rest = encodeVariant32 key.length ++
      (key++(encodeFixed64 h.offset ++ (encodeFixed64 h.size ++ rest))) := by
    simp only [indexEntry,append_assoc]
  have hsecond : (key++(encodeFixed64 h.offset ++ (encodeFixed64 h.size ++ rest))).drop (key.length+8) =
      encodeFixed64 h.size ++ rest := by
    rw [← drop_drop,drop_left,drop_left' (length_encodeFixed64 _)]
  have hrest : (key++(encodeFixed64 h.offset ++ (encodeFixed64 h.size ++ rest))).drop (key.length+16) = rest := by
    rw [show key.length+16 = key.length+8+8 from rfl,← drop_drop,hsecond,
      drop_left' (length_encodeFixed64 _)]
  rw [readIndexEntry,hlayout,decodeVariant32_encode hkey]
  simp only [drop_left,take_left,hsecond,hrest,decodeFixed64_encode,Nat.mod_eq_of_lt hoffset,
    Nat.mod_eq_of_lt hsize]

/-- `open` takes the length of the index from the header in front of it, and its bytes as they are. -/
lemma openFile_layout {data header index : Bytes} (hfit : index.length<2^32) (hdata : data.length<2^62)
    (hheader : header.length = 8) (hsize : decodeFixed32 (header.drop 4) = index.length) {content : Bytes}
    (hcontent : content = data++(header++(index ++ footer data.length index.length))) :
    ∃ r pos, SSTableReader.openFile true (some content) [] = some r ∧
      r.indexEntries = many readIndexEntry index ∧ r.file = ⟨content,pos,[]⟩ := by
  have hlength : content.length = data.length+8+index.length+48 := by
    rw [hcontent]
    simp only [length_append,hheader,length_footer]
    omega
  have hfooter : (⟨content,content.length-48,[]⟩ : InFile).readFull 48 =
      (some (footer data.length index.length),⟨content,content.length-48+48,[]⟩) := by
    apply @readFull_eq _ (data++(header++index)) _ []
    · rw [hcontent]
      simp only [append_assoc,append_nil]
    · simp only [length_append,hheader]
      omega
    · exact length_footer _ _
  have hheaderRead : (⟨content,data.length,[]⟩ : InFile).readFull 8 = (some header,⟨content,data.length+8,[]⟩) :=
    readFull_eq hcontent rfl hheader
  have hdataRead : (⟨content,data.length+8,[]⟩ : InFile).readFull index.length =
      (some index,⟨content,data.length+8+index.length,[]⟩) :=
    readFull_eq (hcontent.trans (append_assoc _ _ _).symm) (by simp [hheader]) rfl
  have hone : ((1 : UInt8).toNat) = 1 := rfl
  refine ⟨⟨⟨content,data.length+8+index.length,[]⟩,1,data.length,
    decodeFixed64 ((footer data.length index.length).drop 8),many readIndexEntry index⟩,_,?_,rfl,rfl⟩
  have hlong : ¬ content.length<48 := by omega
  have hoffset : data.length % 2^64 = data.length := Nat.mod_eq_of_lt (by omega)
  have hseek := @lseek_eq content (content.length-48) 0 [] (by omega)
  have hseek' := @lseek_eq content data.length (content.length-48+48) [] (by omega)
  simp only [SSTableReader.openFile,if_true,Option.bind_eq_bind,Option.bind_some,kSSTableFooterSize,hlong,
    if_false,hseek,hfooter,decode_footer_magic,ne_eq,not_true_eq_false,footer_version,
    hone,kSSTableFormatVersion,lt_irrefl,decode_footer_offset,hoffset,hseek',hheaderRead,hsize,hdataRead]

variable {entries : List IndexEntry}

lemma many_readIndexEntry
    (h : ∀ e ∈ entries, e.lastKey.length<2^32 ∧ e.handle.offset<2^64 ∧ e.handle.size<2^64) :
    many readIndexEntry (entries.flatMap fun e => indexEntry e.lastKey e.handle) = entries := by
  have hm := many_flatMap readIndexEntry_consumes (fun e : IndexEntry => indexEntry e.lastKey e.handle)
    entries [] fun e he rest => readIndexEntry_indexEntry (h e he).1 (h e he).2.1 (h e he).2.2 rest
  have hend : many readIndexEntry [] = [] := many_of_none rfl
  rwa [append_nil,hend,append_nil] at hm

theorem openFile_finished {data index : Bytes}
    (hindex : index = entries.flatMap fun e => indexEntry e.lastKey e.handle) (hfit : index.length<2^32)
    (hdata : data.length<2^62)
    (hentries : ∀ e ∈ entries, e.lastKey.length<2^32 ∧ e.handle.offset<2^64 ∧ e.handle.size<2^64)
    {content : Bytes}
    (hcontent : content = data++(indexHeader index ++ (index ++ footer data.length index.length))) :
    ∃ r pos, SSTableReader.openFile true (some content) [] = some r ∧ r.indexEntries = entries ∧
      r.file = ⟨content,pos,[]⟩ := by
  have hopen := openFile_layout hfit hdata (length_indexHeader index) (decode_indexHeader hfit) hcontent
  rwa [hindex,many_readIndexEntry hentries] at hopen

lemma scanBlocks_stored {content : Bytes} {blocks : List PlacedBlock}
    (h : ∀ x ∈ blocks, ∃ raw, StoredAt codec content x.2.handle raw ∧ forEach raw = x.1) (pos : ℕ) :
    scanBlocks codec [] [] (blocks.map Prod.snd) ⟨content,pos,[]⟩ = (.Ok,placedEntries blocks) := by
  induction blocks generalizing pos with
  | nil => rfl
  | cons x blocks ih =>
    obtain ⟨raw,hstored,hraw⟩ := h x (by simp)
    obtain ⟨pos',hread⟩ := hstored.readBlock pos
    have hall : (forEach raw).filter (inRange [] []) = x.1 := by
      rw [hraw]
      exact filter_eq_self.mpr fun e _ => rfl
    rw [map_cons,scanBlocks,if_neg (by simp),hread]
    simp only [ih (fun y hy => h y (by simp [hy])) pos',hall,placedEntries,flatMap_cons]

end TitanKV.Minikv
