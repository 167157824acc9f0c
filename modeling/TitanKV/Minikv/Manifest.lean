import TitanKV.Minikv.Version

/-! The MANIFEST as a log of edits to the level lists, its replay, and the snapshot that
recovery rewrites it to. -/
namespace TitanKV.Minikv
open List

inductive Edit (π : Type)
  | reset
  | add (level : ℕ) (path : π) (fileNo : ℕ)
  | del (level : ℕ) (path : π) (fileNo : ℕ)
  deriving DecidableEq, Repr

abbrev ManifestRecord := Edit TablePath

section Replay
variable {π : Type} [DecidableEq π]

def applyRecord (ls : LevelLists π) : Edit π → LevelLists π
  | .reset => replicate 8 []
  | .add level path fileNo => pushFile ls level ⟨path,fileNo⟩
  | .del level path _ => eraseFiles (resizeLevels ls (level+1)) level fun m => m.path = path

def replayRecords (records : List (Edit π)) : LevelLists π :=
  records.foldl applyRecord (replicate 8 [])

lemma replayRecords_append (records more : List (Edit π)) :
    replayRecords (records++more) = more.foldl applyRecord (replayRecords records) :=
  foldl_append

end Replay

section Snapshot
variable {π : Type}

def liveEdits (ls : LevelLists π) : List (Edit π) :=
  ls.zipIdx.flatMap fun p => p.1.map fun m => .add p.2 m.path m.fileNumber

variable (ls : LevelLists π)

lemma filesAt_foldl_add [DecidableEq π] (level : ℕ) (files : List (FileMeta π)) (i : ℕ) :
    filesAt ((files.map fun m => Edit.add level m.path m.fileNumber).foldl applyRecord ls) i =
      if level = i then filesAt ls i ++ files else filesAt ls i := by
  induction files generalizing ls with
  | nil => simp
  | cons m files ih =>
    rw [map_cons,foldl_cons,ih]
    simp only [applyRecord,filesAt_pushFile]
    split <;> simp

theorem filesAt_replayRecords_liveEdits [DecidableEq π] (i : ℕ) :
    filesAt (replayRecords (liveEdits ls)) i = filesAt ls i := by
  have h : ∀ (done : LevelLists π) (n i : ℕ),
      filesAt ((ls.zipIdx n).flatMap (fun p => p.1.map fun m =>
        Edit.add p.2 m.path m.fileNumber) |>.foldl applyRecord done) i =
      if n ≤ i then filesAt done i ++ filesAt ls (i-n) else filesAt done i := by
    induction ls with
    | nil => intro done n i; simp [filesAt]
    | cons files ls ih =>
      intro done n i
      rw [zipIdx_cons,flatMap_cons,foldl_append,ih,filesAt_foldl_add]
      rcases lt_trichotomy n i with hlt | rfl | hgt
      · rw [if_pos (by omega),if_neg (by omega),if_pos (by omega)]
        rw [show i-n = (i-(n+1))+1 by omega]
        rfl
      · rw [if_neg (by omega),if_pos rfl,if_pos le_rfl,Nat.sub_self]
        rfl
      · rw [if_neg (by omega),if_neg (by omega),if_neg (by omega)]
  have hi := h (replicate 8 []) 0 i
  rw [if_pos (Nat.zero_le i),filesAt_replicate,nil_append,Nat.sub_zero] at hi
  exact hi

lemma mem_liveEdits {ls : LevelLists π} {e : Edit π} (h : e ∈ liveEdits ls) :
    ∃ i, ∃ m ∈ filesAt ls i, e = .add i m.path m.fileNumber := by
  obtain ⟨⟨files,i⟩,hmem,he⟩ := mem_flatMap.mp h
  obtain ⟨m,hm,rfl⟩ := mem_map.mp he
  obtain ⟨-,hlt,hfiles⟩ := mem_zipIdx hmem
  refine ⟨i,m,?_,rfl⟩
  rw [filesAt,getD_eq_getElem?_getD,getElem?_eq_getElem (by simpa using hlt)]
  simpa [hfiles] using hm

lemma filesAt_applyRecord_del [DecidableEq π] (level : ℕ) (path : π) (no i : ℕ) :
    filesAt (applyRecord ls (.del level path no)) i =
      if level = i then (filesAt ls i).filter (fun m => !decide (m.path = path)) else filesAt ls i := by
  rw [applyRecord,filesAt_eraseFiles,filesAt_resizeLevels]

lemma filesAt_applyRecord_congr [DecidableEq π] {a b : LevelLists π} (h : ∀ i, filesAt a i = filesAt b i)
    (r : Edit π) (i : ℕ) : filesAt (applyRecord a r) i = filesAt (applyRecord b r) i := by
  cases r with
  | reset => rfl
  | add level path fileNo => rw [applyRecord,applyRecord,filesAt_pushFile,filesAt_pushFile,h]
  | del level path fileNo => rw [filesAt_applyRecord_del,filesAt_applyRecord_del,h]

lemma filesAt_foldl_del [DecidableEq π] (level : ℕ) (gone : List (FileMeta π)) (i : ℕ) :
    filesAt ((gone.map fun m => Edit.del level m.path m.fileNumber).foldl applyRecord ls) i =
      if level = i then (filesAt ls i).filter (fun m => !gone.any fun x => m.path = x.path)
        else filesAt ls i := by
  induction gone generalizing ls with
  | nil => simp
  | cons m gone ih =>
    rw [map_cons,foldl_cons,ih,filesAt_applyRecord_del]
    split
    · rw [filter_filter]
      apply filter_congr
      intro x _
      rw [any_cons,Bool.not_or,Bool.and_comm]
    · rfl

lemma add_mem_of_mem_replayRecords [DecidableEq π] {edits : List (Edit π)} {i : ℕ} {m : FileMeta π}
    (h : m ∈ filesAt (replayRecords edits) i) : .add i m.path m.fileNumber ∈ edits := by
  induction edits using reverseRecOn with
  | nil =>
    rw [replayRecords,foldl_nil,filesAt_replicate] at h
    cases h
  | append_singleton edits e ih =>
    rw [replayRecords_append,foldl_cons,foldl_nil] at h
    refine mem_append.mpr ?_
    cases e with
    | reset =>
      rw [applyRecord,filesAt_replicate] at h
      cases h
    | add level path fileNo =>
      rw [applyRecord,filesAt_pushFile] at h
      split at h
      · rename_i hi
        subst hi
        rcases mem_append.mp h with h | h
        · exact .inl (ih h)
        · rw [mem_singleton] at h
          subst h
          exact .inr (mem_singleton_self _)
      · exact .inl (ih h)
    | del level path fileNo =>
      rw [applyRecord,filesAt_eraseFiles,filesAt_resizeLevels] at h
      split at h
      · exact .inl (ih (mem_of_mem_filter h))
      · exact .inl (ih h)

end Snapshot

/-- The records of `rewriteSnapshot`: every live file as an addition, level by level. -/
def snapshotRecords (ls : Levels) : List ManifestRecord :=
  ls.zipIdx.flatMap fun p => p.1.map fun m => .add p.2 m.path m.fileNumber

/-- The records `removeLevelFiles` writes, one for each file it drops. -/
def removeRecords (ls : Levels) (level : ℕ) (paths : List TablePath) : List ManifestRecord :=
  ((filesAt ls level).filter fun m => m.path ∈ paths).map fun m => .del level m.path m.fileNumber

/-- Two level lists with the same files on every level; they may differ in padding. -/
def SameFiles (a b : Levels) : Prop := ∀ i, filesAt a i = filesAt b i

theorem SameFiles.pushFile {a b : Levels} (h : SameFiles a b) (level : ℕ) (m : SSTableMeta) :
    SameFiles (pushFile a level m) (pushFile b level m) := by
  intro i
  rw [filesAt_pushFile,filesAt_pushFile,h i]

/-- Replaying a snapshot gives back the files it was taken of. -/
theorem replayRecords_snapshotRecords (ls : Levels) :
    SameFiles (replayRecords (snapshotRecords ls)) ls := filesAt_replayRecords_liveEdits ls

theorem SameFiles.removeRecords {a b : Levels} (h : SameFiles a b) (level : ℕ)
    (paths : List TablePath) :
    SameFiles ((removeRecords b level paths).foldl applyRecord a)
      (eraseFiles b level fun m => m.path ∈ paths) := by
  intro i
  rw [Minikv.removeRecords,filesAt_foldl_del,filesAt_eraseFiles,h i]
  split
  · rename_i hi
    subst hi
    apply filter_congr
    intro x hx
    rw [Bool.not_inj_iff,Bool.eq_iff_iff,decide_eq_true_eq,any_eq_true]
    constructor
    · rintro ⟨m,hm,he⟩
      have hp := (mem_filter.mp hm).2
      rwa [← of_decide_eq_true he,decide_eq_true_eq] at hp
    · intro hp
      exact ⟨x,mem_filter.mpr ⟨hx,by simpa using hp⟩,by simp⟩
  · rfl

end TitanKV.Minikv
