import TitanKV.Minikv.InternalKey
import TitanKV.Minikv.SSTableBuilder

/-! Reading an SSTable: the footer and the index when it is opened, then block by block. The
block cache is off here, as with a capacity of zero. -/
namespace TitanKV.Minikv
open Parsing

structure IndexEntry where
  lastKey : Bytes
  handle : BlockHandle
  deriving DecidableEq, Repr

structure SSTableReader where
  file : InFile
  formatVersion : ℕ
  indexOffset : ℕ
  indexSize : ℕ
  indexEntries : List IndexEntry

/-- One round of the loop over the index; it ends where no length can be decoded. -/
def readIndexEntry (s : Bytes) : Option (IndexEntry × Bytes) :=
  match decodeVariant32 s with
  | none => none
  | some (keyLen,consumed) =>
    let p := s.drop consumed
    let handle : BlockHandle := ⟨decodeFixed64 (p.drop keyLen),decodeFixed64 (p.drop (keyLen+8))⟩
    some (⟨p.take keyLen,handle⟩,p.drop (keyLen+16))

namespace SSTableReader

/-- `open` succeeds or the descriptor could not be had; no content is no file. The checksum of
the index is not looked at. -/
def openFile (opened : Bool) (content : Option Bytes) (outcomes : List ReadOutcome) : Option SSTableReader := do
  let content ← if opened then content else none
  if content.length<kSSTableFooterSize then none
  else
    let f := (⟨content,0,outcomes⟩ : InFile).lseek (content.length-kSSTableFooterSize)
    let footer ← (f.readFull kSSTableFooterSize).1
    let f := (f.readFull kSSTableFooterSize).2
    if decodeFixed64 (footer.drop 40) ≠ kSSTableMagic then none
    else
      let version := (footer.getD 16 0).toNat
      if kSSTableFormatVersion<version then none
      else
        let f := f.lseek (decodeFixed64 footer)
        let header ← (f.readFull 8).1
        let f := (f.readFull 8).2
        let length := decodeFixed32 (header.drop 4)
        let data ← (f.readFull length).1
        some ⟨(f.readFull length).2,version,decodeFixed64 footer,decodeFixed64 (footer.drop 8),
          many readIndexEntry data⟩

end SSTableReader

variable (codec : Codec)

/-- A payload size of zero is an empty block, whatever the checksum. -/
def readBlock (f : InFile) (h : BlockHandle) : Except Status Bytes × InFile :=
  if h.size<kSSTableBlockHeader then (.error (.Corruption "SSTable block handle size too small"),f)
  else
    let f := f.lseek h.offset
    match f.readFull kSSTableBlockHeader with
    | (none,f) => (.error (.IOError "failed to read block header"),f)
    | (some header,f) =>
      let payloadSize := decodeFixed32 (header.drop 4)
      if payloadSize = 0 then (.ok [],f)
      else
        match f.readFull payloadSize with
        | (none,f) => (.error (.IOError "failed to read block payload"),f)
        | (some payload,f) =>
          if (crc32c payload (toInt payloadSize)).toNat ≠ decodeFixed32 header then
            (.error (.Corruption "SSTable block CRC mismatch"),f)
          else
            (decompressBlock codec (.ofCode (header.getD 12 0)) payload (decodeFixed32 (header.drop 8)),f)

/-- The loop of `BlockReader::getByUserKey` over the entries of a block: it ends at the first entry
of the key or behind it. -/
def lookupKeyValue (userKey : Bytes) : List KeyValue → Option Bytes
  | [] => none
  | e::es =>
    match compare (internalKeyUserKey e.1) userKey with
    | .eq => if internalKeyType e.1 = ValueType.deletion.code then none else some e.2
    | .gt => none
    | .lt => lookupKeyValue userKey es

def getByUserKey (block userKey : Bytes) : Option Bytes := lookupKeyValue userKey (forEach block)

/-- `std::lower_bound` on the `len` entries from `first` on. -/
def lowerBoundFrom {α : Type} (less : α → Bool) (l : List α) : ℕ → ℕ → ℕ → ℕ
  | 0,first,_ => first
  | fuel+1,first,len =>
    if len = 0 then first
    else
      match l[first+len/2]? with
      | none => first
      | some a =>
        if less a then lowerBoundFrom less l fuel (first+len/2+1) (len-len/2-1)
        else lowerBoundFrom less l fuel first (len/2)

def lowerBound {α : Type} (less : α → Bool) (l : List α) : ℕ := lowerBoundFrom less l l.length 0 l.length

/-- The block in which `get` looks for a key: the first whose last key is not below it. -/
def SSTableReader.blockFor (r : SSTableReader) (userKey : Bytes) : Option BlockHandle :=
  r.indexEntries[lowerBound
    (fun e => compare (internalKeyUserKey e.lastKey) userKey = .lt) r.indexEntries]?.map IndexEntry.handle

/-- What the callback of `scan` lets through; an empty bound is no bound. -/
def inRange (start stop : Bytes) (e : KeyValue) : Bool :=
  (start.isEmpty || compare (internalKeyUserKey e.1) start ≠ .lt) &&
    (stop.isEmpty || compare (internalKeyUserKey e.1) stop ≠ .gt)

/-- The loop of `scan` over the index: its status and what the callback got. -/
def scanBlocks (start stop : Bytes) : List IndexEntry → InFile → Status × List KeyValue
  | [],_ => (.Ok,[])
  | e::es,f =>
    if !stop.isEmpty ∧ compare (internalKeyUserKey e.lastKey) stop = .gt then (.Ok,[])
    else
      match readBlock codec f e.handle with
      | (.error s,_) => (s,[])
      | (.ok block,f) =>
        let rest := scanBlocks start stop es f
        (rest.1,(forEach block).filter (inRange start stop) ++ rest.2)

def SSTableReader.scan (r : SSTableReader) (start stop : Bytes) : Status × List KeyValue :=
  scanBlocks codec start stop r.indexEntries r.file

def tableEntries (content : Bytes) : Option (List KeyValue) :=
  (SSTableReader.openFile true (some content) []).bind fun r =>
    if (r.scan codec [] []).1.ok then some (r.scan codec [] []).2 else none

end TitanKV.Minikv
