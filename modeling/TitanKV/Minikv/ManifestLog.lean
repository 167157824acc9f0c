import TitanKV.Minikv.Disk
import TitanKV.Minikv.ManifestFile
import TitanKV.Minikv.Paths

/-! The log of whole records and the bytes it stands for. Path strings are an injective
renaming of the places of the files, so both replay to the same level lists. -/
namespace TitanKV.Minikv
open List

section Renaming
variable {π ρ : Type} (f : π → ρ)

def FileMeta.map (m : FileMeta π) : FileMeta ρ := ⟨f m.path,m.fileNumber⟩

def Edit.map : Edit π → Edit ρ
  | .reset => .reset
  | .add level path fileNo => .add level (f path) fileNo
  | .del level path fileNo => .del level (f path) fileNo

abbrev LevelLists.map (ls : LevelLists π) : LevelLists ρ := List.map (List.map (FileMeta.map f)) ls

variable (ls : LevelLists π)

lemma map_resizeLevels (n : ℕ) :
    LevelLists.map f (resizeLevels ls n) = resizeLevels (LevelLists.map f ls) n := by
  simp [resizeLevels]

lemma map_pushFile (level : ℕ) (m : FileMeta π) :
    LevelLists.map f (pushFile ls level m) = pushFile (LevelLists.map f ls) level (m.map f) := by
  rw [pushFile,pushFile,← map_resizeLevels]
  apply ext_getElem?
  intro i
  simp only [getElem?_map,getElem?_modify]
  cases (resizeLevels ls (level+1))[i]? with
  | none => rfl
  | some files =>
    by_cases hi : level = i <;> simp [hi]

lemma map_eraseFiles (level : ℕ) {gone : FileMeta π → Bool} {gone' : FileMeta ρ → Bool}
    (h : ∀ m, gone' (m.map f) = gone m) :
    LevelLists.map f (eraseFiles ls level gone) = eraseFiles (LevelLists.map f ls) level gone' := by
  have hfilter : ∀ files : List (FileMeta π), (files.filter fun m => !gone m).map (FileMeta.map f) =
      (files.map (FileMeta.map f)).filter fun m => !gone' m := by
    intro files
    rw [filter_map]
    congr 2
    funext m
    simp [h]
  apply ext_getElem?
  intro i
  simp only [eraseFiles,getElem?_map,getElem?_modify]
  cases ls[i]? with
  | none => rfl
  | some files =>
    by_cases hi : level = i <;> simp [hi,hfilter]

/-- Renaming the files of a log without confusing any two renames the files it lists. -/
theorem replayRecords_map [DecidableEq π] [DecidableEq ρ] (hf : Function.Injective f)
    (edits : List (Edit π)) :
    replayRecords (edits.map (Edit.map f)) = LevelLists.map f (replayRecords edits) := by
  have hstep : ∀ (ls : LevelLists π) (e : Edit π),
      applyRecord (LevelLists.map f ls) (e.map f) = LevelLists.map f (applyRecord ls e) := by
    intro ls e
    cases e with
    | reset => simp [applyRecord,Edit.map]
    | add level path fileNo => exact (map_pushFile f ls level ⟨path,fileNo⟩).symm
    | del level path fileNo =>
      rw [Edit.map,applyRecord,applyRecord,← map_resizeLevels]
      refine (map_eraseFiles f _ level fun m => ?_).symm
      exact decide_eq_decide.mpr hf.eq_iff
  have hempty : (replicate 8 [] : LevelLists ρ) = LevelLists.map f (replicate 8 []) := by simp
  rw [replayRecords,hempty,foldl_map]
  exact foldl_hom (LevelLists.map f) hstep

end Renaming

variable (db : Bytes)

lemma tablePath_injective : Function.Injective (tablePath db) :=
  fun _ _ h => (tablePath_inj.mp h).2

def Chunk.bytes (db : Bytes) : Chunk → Bytes
  | .header r => manifestHeader (manifestPayload (r.map (tablePath db)))
  | .payload r => manifestPayload (r.map (tablePath db))

lemma flatMap_recordChunks (records : List ManifestRecord) :
    (recordChunks records).flatMap (Chunk.bytes db) =
      (records.map (Edit.map (tablePath db))).flatMap manifestRecord := by
  induction records with
  | nil => rfl
  | cons r records ih =>
    have hcons : recordChunks (r::records) = .header r::.payload r::recordChunks records := rfl
    rw [hcons,flatMap_cons,flatMap_cons,ih,map_cons,flatMap_cons,← append_assoc]
    rfl

lemma read_manifestHeader {e : Edit Bytes} (h : e.Fits) :
    manifestFraming.read (manifestHeader (manifestPayload e)) = [] := by
  have hwidth : (manifestHeader (manifestPayload e)).length = 8 := manifestFraming.header_length _
  have hlong := h.length_manifestPayload.1
  have hcut : manifestHeader (manifestPayload e) = (manifestFraming.frame (manifestPayload e)).take 8 := by
    exact (take_left' hwidth).symm
  rw [hcut]
  refine Parsing.many_of_none (manifestFraming.readFrame_cut h.framing ?_)
  rw [Framing.length_frame]
  omega

/-- The bytes of a log that ends in a complete record or in a header replay to what the log
lists, under the names the files have on disk. -/
theorem manifestLevels_chunks {records : List ManifestRecord} {tail : List Chunk}
    (hfit : ∀ r ∈ records, (r.map (tablePath db)).Fits)
    (htail : tail = [] ∨ ∃ r : ManifestRecord, (r.map (tablePath db)).Fits ∧ tail = [.header r]) :
    manifestLevels ((recordChunks records ++ tail).flatMap (Chunk.bytes db)) =
      LevelLists.map (tablePath db) (replayRecords (replayLog (recordChunks records ++ tail))) := by
  have hfits : ∀ e ∈ records.map (Edit.map (tablePath db)), e.Fits := by
    intro e he
    obtain ⟨r,hr,rfl⟩ := mem_map.mp he
    exact hfit r hr
  have hlog : replayLog tail = [] ∧ manifestFraming.read (tail.flatMap (Chunk.bytes db)) = [] := by
    rcases htail with rfl | ⟨r,hr,rfl⟩
    · exact ⟨rfl,manifestFraming.read_nil⟩
    · exact ⟨rfl,by rw [flatMap_singleton]; exact read_manifestHeader hr⟩
  rw [flatMap_append,flatMap_recordChunks,manifestLevels,manifestEdits_records hfits hlog.2,
    replayLog_append,hlog.1,append_nil]
  exact replayRecords_map (tablePath db) (tablePath_injective db) records

end TitanKV.Minikv
