import TitanKV.Minikv.Block
import TitanKV.Minikv.Compression
import TitanKV.Minikv.Crc32

/-! Writing an SSTable: data blocks as they fill up, then the index and the footer. Every
`write` may fail; the statuses are those the source returns. The bloom filter goes to a file
of its own and is left out. -/
namespace TitanKV.Minikv

def kSSTableFormatVersion : ℕ := 1
def kSSTableMagic : ℕ := 0x4D4B53535441424C
def kSSTableFooterSize : ℕ := 48
def kSSTableBlockHeader : ℕ := 13

structure BlockHandle where
  offset : ℕ
  size : ℕ
  deriving DecidableEq, Repr

def blockHeader (payload : Bytes) (uncompressedSize : ℕ) (used : CompressionType) : Bytes :=
  encodeFixed32 (crc32c payload (toInt payload.length)).toNat ++ encodeFixed32 payload.length ++
    encodeFixed32 uncompressedSize ++ [used.code]

def indexEntry (lastKey : Bytes) (h : BlockHandle) : Bytes :=
  encodeVariant32 lastKey.length ++ lastKey ++ encodeFixed64 h.offset ++ encodeFixed64 h.size

def indexHeader (index : Bytes) : Bytes :=
  encodeFixed32 (crc32c index (toInt index.length)).toNat ++ encodeFixed32 index.length

/-- The version byte stands behind the two words, the magic in the last eight bytes. -/
def footer (indexOffset indexLength : ℕ) : Bytes :=
  encodeFixed64 indexOffset ++ encodeFixed64 (indexLength+8) ++
    [UInt8.ofNat kSSTableFormatVersion] ++ List.replicate 23 0 ++ encodeFixed64 kSSTableMagic

@[simp] theorem length_blockHeader (payload : Bytes) (size : ℕ) (used : CompressionType) :
    (blockHeader payload size used).length = 13 := by simp [blockHeader]

@[simp] theorem length_indexHeader (index : Bytes) : (indexHeader index).length = 8 := by
  simp [indexHeader]

@[simp] theorem length_footer (indexOffset indexLength : ℕ) :
    (footer indexOffset indexLength).length = 48 := by simp [footer]

structure SSTableBuilder where
  file : OutFile
  blockSize : ℕ
  dataBlock : BlockBuilder
  compression : CompressionType
  indexBlock : Bytes
  lastKey : Bytes
  offset : ℕ
  finished : Bool

namespace SSTableBuilder

/-- The constructor opens the file with `O_TRUNC`. -/
def init (blockSize : ℕ) (compression : CompressionType) (opened : Bool)
    (outcomes : List WriteOutcome) : SSTableBuilder :=
  ⟨⟨opened,[],outcomes⟩,blockSize,.init,compression,[],[],0,false⟩

variable (codec : Codec) (b : SSTableBuilder)

/-- After a failed write the block stays in the builder, its trailer already appended. -/
def flushDataBlock : Status × SSTableBuilder :=
  if b.dataBlock.empty then (.Ok,b)
  else
    let block := b.dataBlock.finish
    let payload := (blockPayload codec b.compression block.buffer).1
    let used := (blockPayload codec b.compression block.buffer).2
    let header := b.file.write (blockHeader payload block.buffer.length used)
    if header.1 ≠ kSSTableBlockHeader then
      (.IOError "SSTable write block header failed",{ b with file := header.2, dataBlock := block })
    else
      let data := header.2.write payload
      if data.1 ≠ payload.length then
        (.IOError "SSTable write block data failed",{ b with file := data.2, dataBlock := block })
      else
        (.Ok,{ b with
          file := data.2
          dataBlock := .init
          indexBlock := b.indexBlock ++
            indexEntry b.lastKey ⟨b.offset,kSSTableBlockHeader+payload.length⟩
          offset := b.offset+kSSTableBlockHeader+payload.length })

def add (internalKey value : Bytes) : Status × SSTableBuilder :=
  let b := { b with dataBlock := b.dataBlock.add internalKey value, lastKey := internalKey }
  if b.blockSize≤b.dataBlock.size then b.flushDataBlock codec else (.Ok,b)

/-- The result of the footer's `write` is ignored. -/
def writeFooter : SSTableBuilder :=
  { b with
    file := (b.file.write (footer (b.offset-(8+b.indexBlock.length)) b.indexBlock.length)).2
    offset := b.offset+kSSTableFooterSize }

/-- So is the status of the last data block. -/
def finish : Status × SSTableBuilder :=
  if b.finished then (.Ok,b)
  else
    let b := ({ b with finished := true }.flushDataBlock codec).2
    let header := b.file.write (indexHeader b.indexBlock)
    let data := header.2.write b.indexBlock
    if header.1 ≠ 8 ∨ data.1 ≠ b.indexBlock.length then
      (.IOError "SSTable write index block failed",{ b with file := data.2 })
    else (.Ok,{ b with file := data.2, offset := b.offset+8+b.indexBlock.length }.writeFooter)

/-- The loop of `flushOne`, which ignores every status. -/
def addAll (es : List KeyValue) : SSTableBuilder := es.foldl (fun b e => (b.add codec e.1 e.2).2) b

end SSTableBuilder
end TitanKV.Minikv
