import TitanKV.Library.CrashPoints
import TitanKV.Minikv.ManifestFile

/-! `MANIFEST`, `MANIFEST.new` and `MANIFEST.bak` byte by byte: the file operations of
`Manifest::open` and of `rewriteSnapshot`, and what a crash between any two of them leaves. -/
namespace TitanKV.Minikv
open CrashPoints List

/-- The three files as the next `open` finds them. -/
structure ManifestDirectory where
  active : Option Bytes
  new : Option Bytes
  bak : Option Bytes
  deriving DecidableEq, Repr

def ManifestDirectory.log (d : ManifestDirectory) : Bytes := ((d.active.or d.new).or d.bak).getD []

/-- The files under a running process, which knows whether `MANIFEST.new` was synced. -/
structure MountedManifest extends ManifestDirectory where
  newSynced : Bool

inductive ManifestCall
  | create
  | createNew
  | writeNew (data : Bytes)
  | syncNew
  | unlinkNew
  | unlinkBak
  | archive
  | promote
  | restore

namespace MountedManifest

/-- The last three are the renames to `MANIFEST.bak`, from `MANIFEST.new` and from
`MANIFEST.bak`; they do nothing when the source is missing. -/
def apply (m : MountedManifest) : ManifestCall → MountedManifest
  | .create => { m with active := some (m.active.getD []) }
  | .createNew => { m with new := some [], newSynced := false }
  | .writeNew data => { m with new := m.new.map (· ++ data) }
  | .syncNew => { m with newSynced := true }
  | .unlinkNew => { m with new := none }
  | .unlinkBak => { m with bak := none }
  | .archive => if m.active.isSome then { m with active := none, bak := m.active } else m
  | .promote => if m.new.isSome then { m with active := m.new, new := none } else m
  | .restore => if m.bak.isSome then { m with active := m.bak, bak := none } else m

/-- A crash keeps only some first part of a `MANIFEST.new` that was not synced. -/
def crash (m : MountedManifest) (kept : ℕ) : ManifestDirectory where
  active := m.active
  new := if m.newSynced then m.new else m.new.map (·.take kept)
  bak := m.bak

end MountedManifest

/-- `recoverActivePathUnlocked`: prefer MANIFEST, else promote `.new`, else restore `.bak`. -/
def activateCalls (d : ManifestDirectory) : List ManifestCall :=
  if d.active.isSome then [.unlinkNew]
  else if d.new.isSome then [.promote]
  else if d.bak.isSome then [.restore]
  else []

def openCalls (d : ManifestDirectory) : List ManifestCall := activateCalls d ++ [.create]

def recordCalls (e : Edit Bytes) : List ManifestCall :=
  [.writeNew (manifestHeader (manifestPayload e)),.writeNew (manifestPayload e)]

def rewriteSnapshotCalls (ls : LevelLists Bytes) : List ManifestCall :=
  .createNew::(liveEdits ls).flatMap recordCalls ++ [.syncNew,.unlinkBak,.archive,.promote]

namespace ManifestDirectory

/-- The live SSTables that the next `open` rebuilds from the file it ends up with. -/
def live (d : ManifestDirectory) : LevelLists Bytes :=
  manifestLevels ((exec MountedManifest.apply ⟨d,true⟩ (openCalls d)).active.getD [])

def startCalls (d : ManifestDirectory) : List ManifestCall := openCalls d ++ rewriteSnapshotCalls d.live

def crashedStart (d : ManifestDirectory) (calls kept : ℕ) : ManifestDirectory :=
  (exec MountedManifest.apply ⟨d,true⟩ (d.startCalls.take calls)).crash kept

end ManifestDirectory

def snapshotBytes (ls : LevelLists Bytes) : Bytes := (liveEdits ls).flatMap manifestRecord

lemma fits_liveEdits_manifestLevels (file : Bytes) : ∀ e ∈ liveEdits (manifestLevels file), e.Fits := by
  intro e h
  obtain ⟨i,m,hm,rfl⟩ := mem_liveEdits h
  exact fits_of_mem_manifestEdits (add_mem_of_mem_replayRecords hm)

theorem filesAt_manifestLevels_snapshotBytes (file : Bytes) (i : ℕ) :
    filesAt (manifestLevels (snapshotBytes (manifestLevels file))) i = filesAt (manifestLevels file) i := by
  have hread := manifestEdits_records (fits_liveEdits_manifestLevels file) manifestFraming.read_nil
  rw [append_nil] at hread
  rw [manifestLevels,snapshotBytes,hread,filesAt_replayRecords_liveEdits]

namespace MountedManifest

/-- Whatever a crash loses here, the next `open` replays one of these logs. -/
def Reads (logs : Set Bytes) (m : MountedManifest) : Prop := ∀ kept, (m.crash kept).log ∈ logs

variable {m : MountedManifest}

lemma reads_of_active {log : Bytes} (h : m.active = some log) {logs : Set Bytes}
    (hlog : log ∈ logs) : m.Reads logs := by
  intro kept
  simpa [ManifestDirectory.log,crash,h] using hlog

/-- Choosing and opening the active file does not change which log is read. -/
lemma reads_openCalls (d : ManifestDirectory) :
    Along apply (Reads {d.log}) ⟨d,true⟩ (openCalls d) ∧
      (exec apply ⟨d,true⟩ (openCalls d)).active = some d.log := by
  obtain ⟨active,new,bak⟩ := d
  cases active with
  | some log => exact ⟨⟨fun _ => rfl,fun _ => rfl,fun _ => rfl⟩,rfl⟩
  | none =>
    cases new with
    | some log => exact ⟨⟨fun _ => rfl,fun _ => rfl,fun _ => rfl⟩,rfl⟩
    | none =>
      cases bak with
      | some log => exact ⟨⟨fun _ => rfl,fun _ => rfl,fun _ => rfl⟩,rfl⟩
      | none => exact ⟨⟨fun _ => rfl,fun _ => rfl⟩,rfl⟩

lemma exec_recordCalls (m : MountedManifest) {written : Bytes} (h : m.new = some written)
    (edits : List (Edit Bytes)) :
    exec apply m (edits.flatMap recordCalls) =
      { m with new := some (written ++ edits.flatMap manifestRecord) } := by
  induction edits generalizing m written with
  | nil => simp [← h]
  | cons e edits ih =>
    have hnew : (exec apply m (recordCalls e)).new = some (written ++ manifestRecord e) := by
      simp [recordCalls,apply,h,manifestRecord]
    rw [flatMap_cons,exec_append,ih _ hnew,flatMap_cons,append_assoc]
    rfl

/-- Until the old file is renamed away it is the one that is read; by then the snapshot is
complete and synced. -/
lemma reads_rewriteSnapshotCalls {log : Bytes} (h : m.active = some log)
    (ls : LevelLists Bytes) :
    Along apply (Reads {log,snapshotBytes ls}) m (rewriteSnapshotCalls ls) ∧
      (exec apply m (rewriteSnapshotCalls ls)).active = some (snapshotBytes ls) := by
  obtain ⟨before,hbefore⟩ : ∃ before, before =
      .createNew::(liveEdits ls).flatMap recordCalls ++ [ManifestCall.syncNew,.unlinkBak] := ⟨_,rfl⟩
  have hsplit : rewriteSnapshotCalls ls = before++[.archive,.promote] := by
    rw [rewriteSnapshotCalls,hbefore,append_assoc]
    rfl
  have hkept : Along apply (fun m' => m'.active = some log) m before := by
    refine (along_of_kept (fun m' : MountedManifest => m'.active = some log) before ?_ h).1
    intro s call hcall hs
    simp only [hbefore,cons_append,mem_cons,mem_append,mem_flatMap,recordCalls,
      not_mem_nil,or_false] at hcall
    rcases hcall with rfl | ⟨e,-,rfl | rfl⟩ | rfl | rfl <;> exact hs
  have hend : exec apply m before = ⟨⟨some log,some (snapshotBytes ls),none⟩,true⟩ := by
    have hnew := exec_recordCalls (apply m .createNew) rfl (liveEdits ls)
    rw [hbefore,cons_append,exec_cons,exec_append,hnew,nil_append]
    simp [apply,h,snapshotBytes]
  rw [hsplit]
  refine ⟨(hkept.imp fun m' hm' => reads_of_active hm' (by simp)).append ?_,
    by rw [exec_append,hend]; rfl⟩
  rw [hend]
  exact ⟨reads_of_active rfl (by simp),fun _ => .inr rfl,reads_of_active rfl (by simp)⟩

end MountedManifest

namespace ManifestDirectory

variable (d : ManifestDirectory)

lemma live_eq : d.live = manifestLevels d.log := by
  rw [live,(MountedManifest.reads_openCalls d).2]
  rfl

/-- A start that is cut short anywhere, and whatever the crash loses, the next `open` reads the
old log or its snapshot. -/
lemma log_crashedStart (calls kept : ℕ) :
    (d.crashedStart calls kept).log = d.log ∨ (d.crashedStart calls kept).log = snapshotBytes d.live := by
  obtain ⟨hopen,hactive⟩ := MountedManifest.reads_openCalls d
  obtain ⟨hrewrite,-⟩ := MountedManifest.reads_rewriteSnapshotCalls hactive d.live
  have halong : Along MountedManifest.apply (MountedManifest.Reads {d.log,snapshotBytes d.live})
      ⟨d,true⟩ d.startCalls := by
    refine Along.append (hopen.imp ?_) hrewrite
    intro m hm k
    exact .inl (hm k)
  exact halong.take calls kept

/-- However often a start crashes between two of its file operations, the next `open` rebuilds
the same live files in the same order. -/
theorem live_crashedStarts (d : ManifestDirectory) (crashes : List (ℕ × ℕ)) (i : ℕ) :
    filesAt (crashes.foldl (fun d c => d.crashedStart c.1 c.2) d).live i = filesAt d.live i := by
  have hone : ∀ (d : ManifestDirectory) (c : ℕ × ℕ),
      filesAt (d.crashedStart c.1 c.2).live i = filesAt d.live i := by
    intro d c
    rcases d.log_crashedStart c.1 c.2 with hlog | hlog
    · rw [live_eq,live_eq,hlog]
    · rw [live_eq,live_eq,hlog,live_eq,filesAt_manifestLevels_snapshotBytes]
  induction crashes generalizing d with
  | nil => rfl
  | cons c crashes ih => rw [foldl_cons,ih,hone]

end ManifestDirectory
end TitanKV.Minikv
