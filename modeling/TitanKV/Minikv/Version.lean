import TitanKV.Minikv.MemTable

/-! The in-memory list of live SSTables per level, in the order they were added. Key range
and size of `SSTableMeta` are never filled in by the code and are left out. -/
namespace TitanKV.Minikv
open List

/-- The file `<db_path>/level-<level>/<number>.sst`. -/
structure TablePath where
  level : ℕ
  number : ℕ
  deriving DecidableEq, Repr

/-- A listed file. Paths are abstract here: `TablePath` where only the place of a file in
the database matters, the bytes of the path where its spelling does. -/
structure FileMeta (π : Type) where
  path : π
  fileNumber : ℕ
  deriving DecidableEq, Repr

abbrev LevelLists (π : Type) := List (List (FileMeta π))
abbrev SSTableMeta := FileMeta TablePath
abbrev Levels := LevelLists TablePath

section Lists
variable {π : Type}

/-- The files of a level; levels out of range are empty. -/
def filesAt (ls : LevelLists π) (level : ℕ) : List (FileMeta π) := ls.getD level []

def resizeLevels (ls : LevelLists π) (n : ℕ) : LevelLists π := ls ++ replicate (n-ls.length) []

def pushFile (ls : LevelLists π) (level : ℕ) (m : FileMeta π) : LevelLists π :=
  (resizeLevels ls (level+1)).modify level (· ++ [m])

def eraseFiles (ls : LevelLists π) (level : ℕ) (gone : FileMeta π → Bool) : LevelLists π :=
  ls.modify level fun files => files.filter fun m => !gone m

@[simp] theorem filesAt_replicate (n i : ℕ) :
    filesAt (replicate n ([] : List (FileMeta π))) i = [] := by
  simp only [filesAt,getD_eq_getElem?_getD,getElem?_replicate]
  split <;> rfl

variable (ls : LevelLists π)

@[simp] theorem filesAt_resizeLevels (n i : ℕ) :
    filesAt (resizeLevels ls n) i = filesAt ls i := by
  simp only [filesAt,resizeLevels,getD_eq_getElem?_getD,getElem?_append]
  split
  · rfl
  · rw [getElem?_eq_none (l := ls) (by omega),getElem?_replicate]
    split <;> rfl

@[simp] theorem filesAt_pushFile (level : ℕ) (m : FileMeta π) (i : ℕ) :
    filesAt (pushFile ls level m) i = if level = i then filesAt ls i ++ [m] else filesAt ls i := by
  have hlen : level+1≤(resizeLevels ls (level+1)).length := by simp [resizeLevels]; omega
  have hat := filesAt_resizeLevels ls (level+1) i
  simp only [filesAt,getD_eq_getElem?_getD] at hat ⊢
  simp only [pushFile,getElem?_modify]
  split
  · rename_i h
    rw [← hat,getElem?_eq_getElem (by omega)]
    rfl
  · simpa using hat

@[simp] theorem filesAt_eraseFiles (level : ℕ) (gone : FileMeta π → Bool) (i : ℕ) :
    filesAt (eraseFiles ls level gone) i =
      if level = i then (filesAt ls i).filter fun m => !gone m else filesAt ls i := by
  simp only [filesAt,eraseFiles,getD_eq_getElem?_getD,getElem?_modify]
  split
  · cases h : ls[i]? <;> simp
  · simp

lemma mem_flatten_of_mem_filesAt {ls : LevelLists π} {i : ℕ} {m : FileMeta π} (h : m ∈ filesAt ls i) :
    m ∈ ls.flatten := by
  rw [filesAt,getD_eq_getElem?_getD] at h
  cases hi : ls[i]? with
  | none => simp [hi] at h
  | some files =>
    rw [hi,Option.getD_some] at h
    exact mem_flatten.mpr ⟨files,mem_of_getElem? hi,h⟩

end Lists

structure Version where
  levels : Levels
  nextFileNumber : ℕ
  deriving Repr

namespace Version

def init : Version := ⟨replicate 7 [],1⟩

def maxFileNumber (ls : Levels) : ℕ := (ls.flatten.map FileMeta.fileNumber).foldl max 0

lemma le_foldl_max (ns : List ℕ) (n : ℕ) : n ≤ ns.foldl max n ∧ ∀ x ∈ ns, x ≤ ns.foldl max n := by
  induction ns generalizing n with
  | nil => exact ⟨le_rfl,fun x hx => by cases hx⟩
  | cons y ns ih =>
    obtain ⟨hle,hall⟩ := ih (max n y)
    refine ⟨(Nat.le_max_left n y).trans hle,?_⟩
    intro x hx
    rcases mem_cons.mp hx with rfl | hx
    · exact (Nat.le_max_right n x).trans hle
    · exact hall x hx

lemma fileNumber_le_maxFileNumber {ls : Levels} {i : ℕ} {m : SSTableMeta} (h : m ∈ filesAt ls i) :
    m.fileNumber ≤ maxFileNumber ls :=
  (le_foldl_max _ 0).2 _ (mem_map_of_mem (mem_flatten_of_mem_filesAt h))

def restoreFrom (v : Version) (snapshot : Levels) : Version where
  levels := resizeLevels snapshot 7
  nextFileNumber :=
    if v.nextFileNumber ≤ maxFileNumber snapshot then maxFileNumber snapshot+1 else v.nextFileNumber

def getLevelFiles (v : Version) (level : ℕ) : List TablePath := (filesAt v.levels level).map (·.path)

/-- The file number is the one in the name `<number>.sst`. -/
def addLevelFile (v : Version) (level : ℕ) (path : TablePath) : Version where
  levels := pushFile v.levels level ⟨path,path.number⟩
  nextFileNumber := max v.nextFileNumber (path.number+1)

def removeLevelFiles (v : Version) (level : ℕ) (paths : List TablePath) : Version :=
  { v with levels := eraseFiles v.levels level fun m => m.path ∈ paths }

/-- `nextFileNumber()` returns the counter and advances it. -/
def advance (v : Version) : Version := { v with nextFileNumber := v.nextFileNumber+1 }

def ensureNextFileNumberAtLeast (v : Version) (minNext : ℕ) : Version :=
  { v with nextFileNumber := max v.nextFileNumber minNext }

end Version
end TitanKV.Minikv
