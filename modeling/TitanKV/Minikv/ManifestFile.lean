import TitanKV.Library.Framing
import TitanKV.Minikv.Crc32
import TitanKV.Minikv.Manifest
import TitanKV.Minikv.Posix

/-! The bytes of the MANIFEST: records `[crc][len][payload]`, where the payload of an edit holds
the path string of its file. -/
namespace TitanKV.Minikv
open List

def editPayload (type : UInt8) (level : ℕ) (path : Bytes) (fileNo : ℕ) : Bytes :=
  [type] ++ encodeFixed32 level ++ encodeFixed64 fileNo ++ encodeFixed32 path.length ++ path

def manifestPayload : Edit Bytes → Bytes
  | .reset => editPayload 0 0 [] 0
  | .add level path fileNo => editPayload 1 level path fileNo
  | .del level path fileNo => editPayload 2 level path fileNo

def manifestHeader (payload : Bytes) : Bytes :=
  encodeFixed32 (crc32c payload (toInt payload.length)).toNat ++ encodeFixed32 payload.length

/-- The record format, as `replay` reads it; empty payloads and those above 16 MiB end the
log. -/
def manifestFraming : Framing UInt8 where
  width := 8
  width_pos := recordHeader_pos
  header := manifestHeader
  header_length data := by simp [manifestHeader]
  bodyLength header := decodeFixed32 (header.drop 4)
  accepts header payload :=
    decodeFixed32 (header.drop 4) ≠ 0 ∧ decodeFixed32 (header.drop 4)≤2^24 ∧
      (crc32c payload (toInt (decodeFixed32 (header.drop 4)))).toNat = decodeFixed32 header

/-- What `replay` does with a complete payload. -/
inductive Decoded
  | stop
  | skip
  | edit (e : Edit Bytes)

/-- The sum with the path length is a `uint32_t`. -/
def decodePayload (payload : Bytes) : Decoded :=
  let type := payload.getD 0 0
  if type = 0 then .edit .reset
  else if payload.length<17 then .skip
  else
    let level := decodeFixed32 (payload.drop 1)
    let fileNo := decodeFixed64 (payload.drop 5)
    let pathLen := decodeFixed32 (payload.drop 13)
    if payload.length<(17+pathLen) % 2^32 then .stop
    else
      let path := (payload.drop 17).take pathLen
      .edit (if type = 1 then .add level path fileNo else .del level path fileNo)

def decodePayloads : List Bytes → List (Edit Bytes)
  | [] => []
  | payload::payloads =>
    match decodePayload payload with
    | .stop => []
    | .skip => decodePayloads payloads
    | .edit e => e::decodePayloads payloads

def manifestEdits (file : Bytes) : List (Edit Bytes) := decodePayloads (manifestFraming.read file)

def manifestLevels (file : Bytes) : LevelLists Bytes := replayRecords (manifestEdits file)

def writeRecordToFd (f : OutFile) (e : Edit Bytes) : Status × OutFile :=
  if f.opened = false then (.IOError "MANIFEST fd not open",f)
  else
    let header := f.write (manifestHeader (manifestPayload e))
    if header.1 ≠ 8 then (.IOError "MANIFEST write header",header.2)
    else
      let payload := header.2.write (manifestPayload e)
      if payload.1 ≠ (manifestPayload e).length then (.IOError "MANIFEST write payload",payload.2)
      else (.Ok,payload.2)

def manifestRecord (e : Edit Bytes) : Bytes := manifestHeader (manifestPayload e) ++ manifestPayload e

/-- No field of the record is truncated and the payload is short enough to be replayed. -/
def Edit.Fits : Edit Bytes → Prop
  | .reset => True
  | .add level path fileNo => level<2^32 ∧ fileNo<2^64 ∧ 17+path.length≤2^24
  | .del level path fileNo => level<2^32 ∧ fileNo<2^64 ∧ 17+path.length≤2^24

instance (e : Edit Bytes) : Decidable e.Fits :=
  match e with
  | .reset => .isTrue trivial
  | .add _ _ _ => inferInstanceAs (Decidable (_ ∧ _))
  | .del _ _ _ => inferInstanceAs (Decidable (_ ∧ _))

@[simp] theorem length_editPayload (type : UInt8) (level : ℕ) (path : Bytes) (fileNo : ℕ) :
    (editPayload type level path fileNo).length = 17+path.length := by
  simp [editPayload]
  omega

variable {e : Edit Bytes}

lemma Edit.Fits.length_manifestPayload (h : e.Fits) :
    17≤(manifestPayload e).length ∧ (manifestPayload e).length≤2^24 := by
  cases e with
  | reset => simp [manifestPayload]
  | add level path fileNo | del level path fileNo =>
    have hfit := h.2.2
    simp only [manifestPayload,length_editPayload]
    omega

lemma decode_editPayload {type : UInt8} {level fileNo : ℕ} {path : Bytes} (hlevel : level<2^32)
    (hno : fileNo<2^64) (hpath : 17+path.length≤2^24) (htype : type ≠ 0) :
    decodePayload (editPayload type level path fileNo) =
      .edit (if type = 1 then .add level path fileNo else .del level path fileNo) := by
  have h₁ : (editPayload type level path fileNo).drop 1 = encodeFixed32 level ++
      (encodeFixed64 fileNo ++ (encodeFixed32 path.length ++ path)) := by
    rfl
  have h₅ : (editPayload type level path fileNo).drop 5 =
      encodeFixed64 fileNo ++ (encodeFixed32 path.length ++ path) := by
    rw [show 5 = 1+4 from rfl,← drop_drop,h₁,drop_left' (length_encodeFixed32 _)]
  have h₁₃ : (editPayload type level path fileNo).drop 13 = encodeFixed32 path.length ++ path := by
    rw [show 13 = 5+8 from rfl,← drop_drop,h₅,drop_left' (length_encodeFixed64 _)]
  have h₁₇ : (editPayload type level path fileNo).drop 17 = path := by
    rw [show 17 = 13+4 from rfl,← drop_drop,h₁₃,drop_left' (length_encodeFixed32 _)]
  have hhead : (editPayload type level path fileNo).getD 0 0 = type := by
    rfl
  have hpathLen : path.length % 2^32 = path.length := Nat.mod_eq_of_lt (by omega)
  have hlong : ¬ 17+path.length<17 := by omega
  have hwhole : ¬ 17+path.length<(17+path.length) % 2^32 := by
    rw [Nat.mod_eq_of_lt (by omega)]
    exact lt_irrefl _
  simp only [decodePayload,hhead,if_neg htype,h₁,h₅,h₁₃,h₁₇,decodeFixed32_encode,decodeFixed64_encode,
    hpathLen,Nat.mod_eq_of_lt hlevel,Nat.mod_eq_of_lt hno,length_editPayload,if_neg hlong,if_neg hwhole,
    take_length]

lemma Edit.Fits.decodePayload (h : e.Fits) :
    decodePayload (manifestPayload e) = .edit e := by
  cases e with
  | reset => rfl
  | add level path fileNo | del level path fileNo => exact decode_editPayload h.1 h.2.1 h.2.2 (by decide)

lemma Edit.Fits.framing (h : e.Fits) : manifestFraming.Fits (manifestPayload e) := by
  obtain ⟨hlong,hshort⟩ := h.length_manifestPayload
  have hlength : decodeFixed32 ((manifestHeader (manifestPayload e)).drop 4) = (manifestPayload e).length := by
    have hd := decodeFixed32_encode (manifestPayload e).length []
    rw [append_nil,Nat.mod_eq_of_lt (by omega)] at hd
    rw [manifestHeader,drop_left' (length_encodeFixed32 _),hd]
  have hcrc : decodeFixed32 (manifestHeader (manifestPayload e)) =
      (crc32c (manifestPayload e) (toInt (manifestPayload e).length)).toNat := by
    rw [manifestHeader,decodeFixed32_encode]
    exact Nat.mod_eq_of_lt (UInt32.toNat_lt _)
  refine ⟨hlength,?_⟩
  simp only [manifestFraming,hlength,hcrc,decide_eq_true_eq]
  exact ⟨by omega,hshort,trivial⟩

variable {edits : List (Edit Bytes)}

lemma decodePayloads_map (h : ∀ e ∈ edits, e.Fits) :
    decodePayloads (edits.map manifestPayload) = edits := by
  induction edits with
  | nil => rfl
  | cons e edits ih =>
    rw [map_cons,decodePayloads,(h e (by simp)).decodePayload]
    simp only [ih fun e he => h e (by simp [he])]

lemma fits_of_decodePayload {payload : Bytes} (hlen : payload.length≤2^24)
    (h : decodePayload payload = .edit e) : e.Fits := by
  have hlevel := decodeFixed32_lt (payload.drop 1)
  have hno := decodeFixed64_lt (payload.drop 5)
  simp only [Minikv.decodePayload] at h
  split at h
  · obtain rfl := Decoded.edit.inj h
    trivial
  · split at h
    · cases h
    · have hpath : 17+((payload.drop 17).take (decodeFixed32 (payload.drop 13))).length≤2^24 := by
        rw [length_take,length_drop]
        omega
      split at h
      · cases h
      · obtain rfl := Decoded.edit.inj h
        split
        · exact ⟨hlevel,hno,hpath⟩
        · exact ⟨hlevel,hno,hpath⟩

lemma fits_of_mem_manifestEdits {file : Bytes} (h : e ∈ manifestEdits file) : e.Fits := by
  have hread : ∀ payloads : List Bytes, (∀ p ∈ payloads, p.length≤2^24) →
      e ∈ decodePayloads payloads → e.Fits := by
    intro payloads
    induction payloads with
    | nil => intro _ he; cases he
    | cons payload payloads ih =>
      intro hlen he
      have hrest := ih fun p hp => hlen p (by simp [hp])
      rw [decodePayloads] at he
      split at he
      · cases he
      · exact hrest he
      · rename_i e' hd
        rcases mem_cons.mp he with rfl | he
        · exact fits_of_decodePayload (hlen payload (by simp)) hd
        · exact hrest he
  refine hread _ ?_ h
  intro payload hp
  obtain ⟨header,hl,haccepts⟩ := manifestFraming.accepts_of_mem_read hp
  simp only [manifestFraming,decide_eq_true_eq] at hl haccepts
  omega

/-- Complete records are replayed in order, and a record that is cut short is not. -/
theorem manifestEdits_records (h : ∀ e ∈ edits, e.Fits) {tail : Bytes}
    (htail : manifestFraming.read tail = []) :
    manifestEdits (edits.flatMap manifestRecord ++ tail) = edits := by
  have hframes : edits.flatMap manifestRecord = (edits.map manifestPayload).flatMap manifestFraming.frame := by
    rw [flatMap_map]
    rfl
  have hfits : ∀ payload ∈ edits.map manifestPayload, manifestFraming.Fits payload := by
    intro payload hp
    obtain ⟨e,he,rfl⟩ := mem_map.mp hp
    exact (h e he).framing
  rw [manifestEdits,hframes,manifestFraming.read_append _ tail hfits,htail,append_nil,
    decodePayloads_map h]

lemma content_writeRecordToFd (f : OutFile) (e : Edit Bytes) :
    ∃ n, (writeRecordToFd f e).2.content = f.content ++ (manifestRecord e).take n := by
  have hlength : (manifestHeader (manifestPayload e)).length = 8 := manifestFraming.header_length _
  rw [writeRecordToFd]
  split
  · exact ⟨0,by simp⟩
  · dsimp only
    split
    · obtain ⟨n,hn⟩ := f.content_write (manifestHeader (manifestPayload e))
      refine ⟨min n 8,?_⟩
      rw [hn,manifestRecord,take_append_of_le_length (by omega)]
      rw [← take_take,take_of_length_le hlength.le]
    · rename_i hret
      rw [not_not] at hret
      have hheader := OutFile.content_of_ret (hret.trans (by rw [hlength]; rfl))
      obtain ⟨n,hn⟩ := (f.write (manifestHeader (manifestPayload e))).2.content_write (manifestPayload e)
      have hpayload : (((f.write (manifestHeader (manifestPayload e))).2.write (manifestPayload e)).2).content =
          f.content ++ (manifestRecord e).take (8+n) := by
        rw [hn,hheader,manifestRecord,append_assoc,← hlength,take_length_add_append]
      split
      · exact ⟨8+n,hpayload⟩
      · exact ⟨8+n,hpayload⟩

lemma manifestEdits_cut (h : ∀ e ∈ edits, e.Fits)
    (he : e.Fits) (n : ℕ) :
    manifestEdits (edits.flatMap manifestRecord ++ (manifestRecord e).take n) = edits ∨
      manifestEdits (edits.flatMap manifestRecord ++ (manifestRecord e).take n) = edits++[e] := by
  by_cases hn : n<(manifestFraming.frame (manifestPayload e)).length
  · refine .inl (manifestEdits_records h ?_)
    exact Parsing.many_of_none (manifestFraming.readFrame_cut he.framing hn)
  · refine .inr ?_
    have hall : (manifestRecord e).take n = [e].flatMap manifestRecord := by
      rw [flatMap_singleton]
      exact take_of_length_le (not_lt.mp hn)
    have hfits : ∀ x ∈ edits ++ [e], x.Fits := by
      intro x hx
      rcases mem_append.mp hx with hx | hx
      · exact h x hx
      · rwa [mem_singleton.mp hx]
    have hread := manifestEdits_records hfits manifestFraming.read_nil
    rwa [append_nil,flatMap_append,← hall] at hread

lemma writeRecordToFd_healthy {f : OutFile} (h : f.Healthy) (e : Edit Bytes) :
    (writeRecordToFd f e).1 = .Ok ∧ (writeRecordToFd f e).2.content = f.content ++ manifestRecord e ∧
      (writeRecordToFd f e).2.Healthy := by
  obtain ⟨hret₁,hcontent₁,hhealthy₁⟩ := h.write (manifestHeader (manifestPayload e))
  obtain ⟨hret₂,hcontent₂,hhealthy₂⟩ := hhealthy₁.write (manifestPayload e)
  have hlength : (manifestHeader (manifestPayload e)).length = 8 := manifestFraming.header_length _
  rw [hlength] at hret₁
  have hopened : ¬ f.opened = false := by simp [h.opened]
  simp only [writeRecordToFd,if_neg hopened,hret₁,hret₂,ne_eq,not_true_eq_false,Nat.cast_ofNat,if_false]
  exact ⟨trivial,by rw [hcontent₂,hcontent₁,manifestRecord,append_assoc],hhealthy₂⟩

end TitanKV.Minikv
