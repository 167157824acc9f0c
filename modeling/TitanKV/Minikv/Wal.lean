import TitanKV.Library.Framing
import TitanKV.Minikv.Crc32
import TitanKV.Minikv.Posix

/-! The write-ahead log: records `[crc][len][payload]` appended to one file, and the
replay that stops at the first record it cannot read completely. -/
namespace TitanKV.Minikv
open List

def walHeader (data : Bytes) : Bytes :=
  encodeFixed32 (crc32c data (toInt data.length)).toNat ++ encodeFixed32 data.length

def walFraming : Framing UInt8 where
  width := 8
  width_pos := recordHeader_pos
  header := walHeader
  header_length data := by simp [walHeader]
  bodyLength header := decodeFixed32 (header.drop 4)
  accepts header data :=
    (crc32c data (toInt (decodeFixed32 (header.drop 4)))).toNat = decodeFixed32 header

/-- The payload that is written: `write` gets the length after its cast to `uint32_t`. -/
def walPayload (data : Bytes) : Bytes := data.take (data.length % 2^32)

def walRecord (data : Bytes) : Bytes := walHeader data ++ walPayload data

/-- `WAL::append` on an open file, given the outcomes of its two `write` calls. -/
def walAppend (file data : Bytes) (header payload : WriteOutcome) : Status × Bytes :=
  if header.ret (walHeader data) ≠ 8 then
    (.IOError "WAL write header failed",file ++ header.written (walHeader data))
  else if 0<(walPayload data).length ∧ payload.ret (walPayload data) ≠ (walPayload data).length then
    (.IOError "WAL write data failed",
      file ++ header.written (walHeader data) ++ payload.written (walPayload data))
  else (.Ok,file ++ header.written (walHeader data) ++ walPayload data)

def walReplay (file : Bytes) : List Bytes := walFraming.read file

@[simp] theorem walReplay_nil : walReplay [] = [] := walFraming.read_nil

@[simp] theorem length_walHeader (data : Bytes) : (walHeader data).length = 8 :=
  walFraming.header_length data

variable {data : Bytes}

lemma walPayload_eq (h : data.length<2^32) : walPayload data = data := by
  rw [walPayload,Nat.mod_eq_of_lt h,take_length]

lemma walRecord_eq_frame (h : data.length<2^32) :
    walRecord data = walFraming.frame data := by
  rw [walRecord,walPayload_eq h]
  rfl

lemma walHeader_drop (data : Bytes) : (walHeader data).drop 4 = encodeFixed32 data.length := by
  rw [walHeader,drop_left' (length_encodeFixed32 _)]

lemma decode_walHeader_length (h : data.length<2^32) :
    decodeFixed32 ((walHeader data).drop 4) = data.length := by
  have hd := decodeFixed32_encode data.length []
  rw [append_nil] at hd
  rw [walHeader_drop,hd,Nat.mod_eq_of_lt h]

/-- Below four gigabytes a record is read back with a matching checksum. -/
theorem walFraming_fits (h : data.length<2^32) : walFraming.Fits data := by
  have hl := decode_walHeader_length h
  refine ⟨hl,?_⟩
  have hcrc : decodeFixed32 (walHeader data) = (crc32c data (toInt data.length)).toNat := by
    rw [walHeader,decodeFixed32_encode]
    exact Nat.mod_eq_of_lt (UInt32.toNat_lt _)
  simp only [walFraming,hl,hcrc,decide_true]

theorem walReplay_append (records : List Bytes) (tail : Bytes)
    (h : ∀ data ∈ records, data.length<2^32) :
    walReplay (records.flatMap walRecord ++ tail) = records ++ walReplay tail := by
  have hmap : records.flatMap walRecord = records.flatMap walFraming.frame :=
    flatMap_congr fun data hd => walRecord_eq_frame (h data hd)
  rw [hmap]
  exact walFraming.read_append records tail fun data hd => walFraming_fits (h data hd)

/-- The header announces what is written of the payload, whatever the size. -/
lemma decode_walHeader_payload (data : Bytes) :
    decodeFixed32 ((walHeader data).drop 4) = (walPayload data).length := by
  have hd := decodeFixed32_encode data.length []
  rw [append_nil] at hd
  rw [walHeader_drop,hd,walPayload,length_take,min_eq_left (Nat.mod_le _ _)]

theorem walReplay_cut {n : ℕ} (hn : n<(walRecord data).length) :
    walReplay ((walRecord data).take n) = [] := by
  apply Parsing.many_of_none
  rw [walRecord,length_append,length_walHeader] at hn
  have hwidth : walFraming.width = 8 := rfl
  have hlen : (((walRecord data).take n)).length = n := by
    rw [length_take,walRecord,length_append,length_walHeader]
    omega
  rw [Framing.readFrame,hwidth,hlen]
  split
  · rfl
  · have htake : ((walRecord data).take n).take 8 = walHeader data := by
      rw [take_take,min_eq_left (by omega),walRecord,take_left' (length_walHeader data)]
    have hbody : walFraming.bodyLength (walHeader data) = (walPayload data).length :=
      decode_walHeader_payload data
    rw [htake,hbody,if_pos]
    rw [length_drop,hlen]
    omega

/-- The file consists of complete records; it does not end in a torn one. -/
def WholeRecords (file : Bytes) : Prop := file = (walReplay file).flatMap walRecord

instance (file : Bytes) : Decidable (WholeRecords file) := inferInstanceAs (Decidable (_ = _))

lemma length_of_mem_walReplay {file data : Bytes} (h : data ∈ walReplay file) : data.length<2^32 := by
  obtain ⟨header,hl,-⟩ := walFraming.accepts_of_mem_read h
  rw [hl]
  exact decodeFixed32_lt _

theorem WholeRecords.walReplay_record {file data : Bytes} (h : WholeRecords file)
    (hsize : data.length<2^32) : walReplay (file ++ walRecord data) = walReplay file ++ [data] := by
  have hall : ∀ x ∈ walReplay file ++ [data], x.length<2^32 := by
    intro x hx
    rcases mem_append.mp hx with hx | hx
    · exact length_of_mem_walReplay hx
    · rw [mem_singleton.mp hx]
      exact hsize
  have hr := walReplay_append (walReplay file ++ [data]) [] hall
  rw [append_nil,walReplay_nil,append_nil,flatMap_append,← h] at hr
  simpa using hr

theorem WholeRecords.walReplay_cut {file data : Bytes} (h : WholeRecords file) {n : ℕ}
    (hn : n<(walRecord data).length) :
    walReplay (file ++ (walRecord data).take n) = walReplay file := by
  have hr := walReplay_append (walReplay file) ((walRecord data).take n)
    fun x hx => length_of_mem_walReplay hx
  rwa [← h,Minikv.walReplay_cut hn,append_nil] at hr

end TitanKV.Minikv
