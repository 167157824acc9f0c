import TitanKV.Minikv.Coding

/-! The wire protocol. A request is a packed header, a key and a value; a response is a packed header
and a value. All numbers are little-endian. -/
namespace TitanKV.Minikv
open LittleEndian List

def kProtocolMagic : ℕ := 0x4D4B

inductive Cmd
  | put
  | get
  | del
  | scan
  | batch
  | deleteRange
  deriving DecidableEq, Repr

def Cmd.code : Cmd → UInt8
  | put => 1
  | get => 2
  | del => 3
  | scan => 4
  | batch => 5
  | deleteRange => 6

inductive ResponseStatus
  | ok
  | notFound
  | error
  deriving DecidableEq, Repr

def ResponseStatus.code : ResponseStatus → UInt8
  | ok => 0
  | notFound => 1
  | error => 2

structure Response where
  status : ResponseStatus
  value : Bytes
  deriving DecidableEq, Repr

structure RequestHeader where
  magic : ℕ
  cmd : UInt8
  keyLen : ℕ
  valLen : ℕ
  deriving DecidableEq, Repr

namespace RequestHeader

/-- `sizeof(RequestHeader)`: the struct is packed. -/
def size : ℕ := 11

def encode (hdr : RequestHeader) : Bytes :=
  bytes 2 hdr.magic ++ hdr.cmd::(encodeFixed32 hdr.keyLen ++ encodeFixed32 hdr.valLen)

def ofBytes (buf : Bytes) : RequestHeader :=
  ⟨value (buf.take 2),(buf.drop 2).headD 0,decodeFixed32 (buf.drop 3),decodeFixed32 (buf.drop 7)⟩

def totalSize (hdr : RequestHeader) : ℕ := size+hdr.keyLen+hdr.valLen

@[simp] theorem length_encode (hdr : RequestHeader) : hdr.encode.length = size := by
  simp [encode,size]

theorem ofBytes_encode {hdr : RequestHeader} (hmagic : hdr.magic<2^16) (hkey : hdr.keyLen<2^32)
    (hval : hdr.valLen<2^32) (rest : Bytes) : ofBytes (hdr.encode++rest) = hdr := by
  have htwo : (hdr.encode++rest).drop 2 =
      hdr.cmd::(encodeFixed32 hdr.keyLen ++ (encodeFixed32 hdr.valLen ++ rest)) := by
    rw [encode,append_assoc,drop_left' (length_bytes 2 _)]
    simp
  have hthree : (hdr.encode++rest).drop 3 = encodeFixed32 hdr.keyLen ++ (encodeFixed32 hdr.valLen ++ rest) := by
    rfl
  have hseven : (hdr.encode++rest).drop 7 = encodeFixed32 hdr.valLen ++ rest := by
    rw [show (7 : ℕ) = 3+4 by rfl,← drop_drop,hthree,drop_left' (length_encodeFixed32 _)]
  have hfirst : value ((hdr.encode++rest).take 2) = hdr.magic := by
    rw [encode,append_assoc,take_left' (length_bytes 2 _),value_bytes]
    exact Nat.mod_eq_of_lt (by simpa using hmagic)
  rw [ofBytes,hfirst,htwo,hthree,hseven,decodeFixed32_encode,decodeFixed32_encode,Nat.mod_eq_of_lt hkey,
    Nat.mod_eq_of_lt hval]
  rfl

lemma ofBytes_append {buf : Bytes} (h : size≤buf.length) (rest : Bytes) : ofBytes (buf++rest) = ofBytes buf := by
  rw [size] at h
  have hword : ∀ n, n+4≤11 → decodeFixed32 ((buf++rest).drop n) = decodeFixed32 (buf.drop n) := by
    intro n hn
    rw [drop_append_of_le_length (by omega),decodeFixed32,take_append_of_le_length (by simp; omega)]
    rfl
  rw [ofBytes,ofBytes,take_append_of_le_length (by omega),hword 3 (by omega),hword 7 (by omega),
    drop_append_of_le_length (by omega)]
  cases hdrop : buf.drop 2 with
  | nil =>
    have hlen := congrArg length hdrop
    simp at hlen
    omega
  | cons c cs => rfl

end RequestHeader

/-- A request frame; the lengths are truncated to 32 bits. -/
def encodeRequest (cmd : UInt8) (key value : Bytes) : Bytes :=
  RequestHeader.encode ⟨kProtocolMagic,cmd,key.length,value.length⟩ ++ key++value

def encodeResponse (r : Response) : Bytes :=
  bytes 2 kProtocolMagic ++ r.status.code::(encodeFixed32 r.value.length ++ r.value)

lemma length_encodeRequest (cmd : UInt8) (key value : Bytes) :
    (encodeRequest cmd key value).length = RequestHeader.size+key.length+value.length := by
  simp [encodeRequest]
  omega

lemma length_encodeResponse (r : Response) : (encodeResponse r).length = 7+r.value.length := by
  simp [encodeResponse]
  omega

theorem ofBytes_encodeRequest (cmd : UInt8) {key value : Bytes} (hkey : key.length<2^32)
    (hvalue : value.length<2^32) (rest : Bytes) :
    RequestHeader.ofBytes (encodeRequest cmd key value ++ rest) = ⟨kProtocolMagic,cmd,key.length,value.length⟩ := by
  have hmagic : kProtocolMagic<2^16 := by decide
  exact RequestHeader.ofBytes_encode hmagic hkey hvalue _

end TitanKV.Minikv
