import TitanKV.Library.Runs
import TitanKV.Minikv.ManifestDirectory
import TitanKV.Minikv.Paths

/-! Runs of sessions over one MANIFEST. A session opens it, rewrites it as a snapshot and then
appends the records of its edits to the Version; a crash may cut them at any byte. -/
namespace TitanKV.Minikv
open CrashPoints Runs List Option MountedManifest

/-- A call that changes the Version. Levels are an `int` of the source. -/
inductive VersionEdit
  | add (level : ℤ) (path : Bytes)
  | remove (level : ℤ) (paths : List Bytes)
  deriving DecidableEq, Repr

/-- What a session has in memory: `Version::levels_`, `Version::next_file_number_` and
`Manifest::levels_`. -/
structure VersionState where
  levels : LevelLists Bytes
  nextFileNumber : ℕ
  recorded : LevelLists Bytes
  deriving DecidableEq, Repr

namespace VersionState
variable (v : VersionState)

/-- The file number that `addLevelFile` gives to a path. -/
def fileNoFor (path : Bytes) : ℕ := (fileNumberOf path).getD v.nextFileNumber

/-- The counter after `addLevelFile`; it is a `uint64_t`. -/
def counterAfter (path : Bytes) : ℕ :=
  match fileNumberOf path with
  | some fileNo => max v.nextFileNumber ((fileNo+1) % 2^64)
  | none => (v.nextFileNumber+1) % 2^64

/-- The files that `removeLevelFiles` drops, in the order it meets them. -/
def dropped (level : ℕ) (paths : List Bytes) : List (FileMeta Bytes) :=
  (filesAt v.levels level).filter fun m => paths.contains m.path

def records : VersionEdit → List (Edit Bytes)
  | .add level path => if level<0 then [] else [.add level.toNat path (v.fileNoFor path)]
  | .remove level paths =>
    if level<0 ∨ v.levels.length≤level.toNat then []
    else (v.dropped level.toNat paths).map fun m => .del level.toNat m.path m.fileNumber

def record (ls : LevelLists Bytes) : Edit Bytes → LevelLists Bytes
  | .reset => ls
  | .add level path fileNo => pushFile ls level ⟨path,fileNo⟩
  | .del level path _ => eraseFiles ls level fun m => m.path = path

def edit : VersionEdit → VersionState
  | .add level path =>
    if level<0 then v
    else
      { levels := pushFile v.levels level.toNat ⟨path,v.fileNoFor path⟩
        nextFileNumber := v.counterAfter path
        recorded := (v.records (.add level path)).foldl record v.recorded }
  | .remove level paths =>
    if level<0 ∨ v.levels.length≤level.toNat then v
    else
      { v with
        levels := eraseFiles v.levels level.toNat fun m => paths.contains m.path
        recorded := (v.records (.remove level paths)).foldl record v.recorded }

def restored (live : LevelLists Bytes) : VersionState where
  levels := resizeLevels live 7
  nextFileNumber :=
    let maxNo := (live.flatten.map FileMeta.fileNumber).foldl max 0
    if 1 ≤ maxNo then (maxNo+1) % 2^64 else 1
  recorded := resizeLevels live 8

end VersionState

/-- The files and the process that may have them open. -/
structure ManifestProcess where
  files : ManifestDirectory
  session : Option VersionState
  deriving DecidableEq, Repr

/-- A crash strikes during an edit, when this many bytes of its records are in the file. -/
inductive ManifestEvent
  | start
  | edit (e : VersionEdit)
  | nextFileNumber
  | ensureNextFileNumberAtLeast (minNext : ℕ)
  | crash (during : VersionEdit) (bytes : ℕ)
  deriving DecidableEq, Repr

namespace ManifestProcess

def append (d : ManifestDirectory) (data : Bytes) : ManifestDirectory :=
  { d with active := d.active.map (· ++ data) }

/-- Every session starts with `open`, `restoreFrom` and `rewriteSnapshot`. -/
def step (p : ManifestProcess) : ManifestEvent → Option ManifestProcess
  | .start =>
    if p.session.isSome then none
    else some
      { files := (exec apply ⟨p.files,true⟩ p.files.startCalls).toManifestDirectory
        session := some (.restored p.files.live) }
  | .edit e => p.session.map fun v =>
    { files := append p.files ((v.records e).flatMap manifestRecord)
      session := some (v.edit e) }
  | .nextFileNumber => p.session.map fun v =>
    { p with session := some { v with nextFileNumber := (v.nextFileNumber+1) % 2^64 } }
  | .ensureNextFileNumberAtLeast minNext => p.session.map fun v =>
    { p with session := some { v with nextFileNumber := max v.nextFileNumber minNext } }
  | .crash e bytes => p.session.map fun v =>
    { files := append p.files (((v.records e).flatMap manifestRecord).take bytes)
      session := none }

end ManifestProcess

/-- Levels are in the range of an `int`, and the path of a new file is short enough. -/
def VersionEdit.Fits : VersionEdit → Prop
  | .add level path => level<2^31 ∧ path.length<2^24-17
  | .remove level _ => level<2^31

instance (e : VersionEdit) : Decidable e.Fits :=
  match e with
  | .add _ _ => inferInstanceAs (Decidable (_ ∧ _))
  | .remove _ _ => inferInstanceAs (Decidable (_<_))

def ManifestEvent.Fits : ManifestEvent → Prop
  | .edit e | .crash e _ => e.Fits
  | .ensureNextFileNumberAtLeast minNext => minNext<2^64
  | .start | .nextFileNumber => True

instance (e : ManifestEvent) : Decidable e.Fits :=
  match e with
  | .edit _ | .crash _ _ => inferInstanceAs (Decidable (VersionEdit.Fits _))
  | .ensureNextFileNumberAtLeast _ => inferInstanceAs (Decidable (_<_))
  | .start | .nextFileNumber => .isTrue trivial

/-- The records that lie completely within the first `n` bytes written for them. -/
def completeRecords (n : ℕ) (edits : List (Edit Bytes)) : List (Edit Bytes) :=
  edits.take (manifestFraming.within n (edits.map manifestPayload)).length

def Edit.drops (level : ℕ) (m : FileMeta Bytes) : Edit Bytes → Bool
  | .del l path _ => l = level && m.path = path
  | _ => false

lemma any_drops (level : ℕ) (gone : List (FileMeta Bytes)) (i : ℕ) (m : FileMeta Bytes) :
    (gone.map fun x => Edit.del level x.path x.fileNumber).any (Edit.drops i m) =
      (decide (level = i) && gone.any fun x => m.path = x.path) := by
  induction gone with
  | nil => simp
  | cons x gone ih => rw [map_cons,any_cons,any_cons,ih,Edit.drops,Bool.and_or_distrib_left]

lemma manifestEdits_take {es edits : List (Edit Bytes)} (hes : ∀ e ∈ es, e.Fits)
    (hedits : ∀ e ∈ edits, e.Fits) (n : ℕ) :
    manifestEdits (es.flatMap manifestRecord ++ (edits.flatMap manifestRecord).take n) =
      es ++ completeRecords n edits := by
  have hframes : ∀ es : List (Edit Bytes),
      es.flatMap manifestRecord = (es.map manifestPayload).flatMap manifestFraming.frame := by
    intro es
    rw [flatMap_map]
    rfl
  have hfits : ∀ es : List (Edit Bytes), (∀ e ∈ es, e.Fits) →
      ∀ payload ∈ es.map manifestPayload, manifestFraming.Fits payload := by
    intro es h payload hp
    obtain ⟨e,he,rfl⟩ := mem_map.mp hp
    exact (h e he).framing
  have hall : ∀ e ∈ es ++ completeRecords n edits, e.Fits := by
    intro e he
    rcases mem_append.mp he with he | he
    · exact hes e he
    · exact hedits e (mem_of_mem_take he)
  rw [manifestEdits,hframes,hframes,manifestFraming.read_append _ _ (hfits es hes),
    manifestFraming.read_take _ (hfits edits hedits),manifestFraming.within_eq_take,← map_take,
    ← completeRecords,← map_append,decodePayloads_map hall]

namespace VersionState
variable {v : VersionState} {es : List (Edit Bytes)}

/-- The log and the memory of a session agree. -/
structure Agrees (v : VersionState) (es : List (Edit Bytes)) : Prop where
  fits : ∀ e ∈ es, e.Fits
  levels : ∀ i, filesAt v.levels i = filesAt (replayRecords es) i
  recorded : ∀ i, filesAt v.recorded i = filesAt (replayRecords es) i
  counter : v.nextFileNumber<2^64

lemma fileNoFor_lt (h : v.nextFileNumber<2^64) (path : Bytes) : v.fileNoFor path<2^64 := by
  rw [fileNoFor]
  cases hno : fileNumberOf path with
  | none => exact h
  | some n => exact fileNumberOf_lt hno

lemma counterAfter_lt (h : v.nextFileNumber<2^64) (path : Bytes) : v.counterAfter path<2^64 := by
  rw [counterAfter]
  split
  · exact max_lt h (Nat.mod_lt _ (by norm_num))
  · exact Nat.mod_lt _ (by norm_num)

lemma Agrees.fits_records (h : v.Agrees es) {e : VersionEdit} (he : e.Fits) : ∀ r ∈ v.records e, r.Fits := by
  intro r hr
  cases e with
  | add level path =>
    obtain ⟨hlevel,hpath⟩ := he
    rw [records] at hr
    split at hr
    · cases hr
    · rw [mem_singleton] at hr
      subst hr
      exact ⟨by omega,fileNoFor_lt h.counter path,by omega⟩
  | remove level paths =>
    have hlevel : level<2^31 := he
    rw [records] at hr
    split at hr
    · cases hr
    · obtain ⟨m,hm,rfl⟩ := mem_map.mp hr
      have hlisted := (mem_filter.mp hm).1
      rw [h.levels] at hlisted
      -- a listed file has been written before
      obtain ⟨-,hno,hpath⟩ := h.fits _ (add_mem_of_mem_replayRecords hlisted)
      exact ⟨by omega,hno,hpath⟩

lemma filesAt_record (ls : LevelLists Bytes) {r : Edit Bytes} (hr : r ≠ .reset) (i : ℕ) :
    filesAt (record ls r) i = filesAt (applyRecord ls r) i := by
  cases r with
  | reset => exact (hr rfl).elim
  | add level path fileNo => rfl
  | del level path fileNo =>
    rw [record,applyRecord,filesAt_eraseFiles,filesAt_eraseFiles,filesAt_resizeLevels]

lemma filesAt_foldl_record {rs : List (Edit Bytes)} (hrs : .reset ∉ rs) {a b : LevelLists Bytes}
    (h : ∀ i, filesAt a i = filesAt b i) (i : ℕ) :
    filesAt (rs.foldl record a) i = filesAt (rs.foldl applyRecord b) i := by
  induction rs generalizing a b with
  | nil => exact h i
  | cons r rs ih =>
    refine ih (fun hr => hrs (by simp [hr])) fun i => ?_
    rw [filesAt_record a (fun hr => hrs (by simp [hr])),filesAt_applyRecord_congr h]

lemma reset_not_mem_records (v : VersionState) (e : VersionEdit) : .reset ∉ v.records e := by
  cases e with
  | add level path | remove level paths =>
    rw [records]
    split <;> simp

lemma filesAt_replay_records (h : v.Agrees es) (e : VersionEdit) (i : ℕ) :
    filesAt (v.edit e).levels i = filesAt (replayRecords (es ++ v.records e)) i := by
  rw [replayRecords_append]
  cases e with
  | add level path =>
    rw [edit,records]
    split
    · exact h.levels i
    · simp only [foldl_cons,foldl_nil,applyRecord,filesAt_pushFile,h.levels]
  | remove level paths =>
    rw [edit,records]
    split
    · exact h.levels i
    · rw [filesAt_foldl_del,filesAt_eraseFiles,← h.levels]
      split
      · rename_i hi
        subst hi
        apply filter_congr
        intro m hm
        rw [Bool.not_inj_iff,Bool.eq_iff_iff]
        constructor
        · intro hp
          exact any_eq_true.mpr ⟨m,mem_filter.mpr ⟨hm,hp⟩,decide_eq_true rfl⟩
        · intro hp
          obtain ⟨x,hx,heq⟩ := any_eq_true.mp hp
          rw [of_decide_eq_true heq]
          exact (mem_filter.mp hx).2
      · rfl

theorem Agrees.edit (h : v.Agrees es) {e : VersionEdit} (he : e.Fits) :
    (v.edit e).Agrees (es ++ v.records e) := by
  refine ⟨?_,filesAt_replay_records h e,?_,?_⟩
  · intro r hr
    rcases mem_append.mp hr with hr | hr
    · exact h.fits r hr
    · exact h.fits_records he r hr
  · intro i
    have hrecord := filesAt_foldl_record (v.reset_not_mem_records e) h.recorded i
    rw [replayRecords_append,← hrecord]
    cases e with
    | add level path | remove level paths =>
      rw [VersionState.edit]
      split
      · rename_i hlevel
        rw [records,if_pos hlevel]
        rfl
      · rfl
  · cases e with
    | add level path =>
      rw [VersionState.edit]
      split
      · exact h.counter
      · exact counterAfter_lt h.counter path
    | remove level paths =>
      rw [VersionState.edit]
      split <;> exact h.counter

/-- What the complete records of an edit that is cut short amount to. -/
lemma filesAt_replay_complete (h : v.Agrees es) (e : VersionEdit) (n i : ℕ) :
    filesAt (replayRecords (es ++ completeRecords n (v.records e))) i =
      if completeRecords n (v.records e) = v.records e then filesAt (v.edit e).levels i
      else (filesAt v.levels i).filter fun m => !(completeRecords n (v.records e)).any (Edit.drops i m) := by
  split
  · rename_i hall
    rw [hall,filesAt_replay_records h]
  · rename_i hcut
    cases e with
    | add level path =>
      -- the one record of an addition is there or not
      have hnone : completeRecords n (v.records (.add level path)) = [] := by
        rw [completeRecords] at hcut ⊢
        generalize (manifestFraming.within n _).length = k at hcut ⊢
        rw [records] at hcut ⊢
        split
        · exact take_nil
        · rename_i hlevel
          rw [if_neg hlevel] at hcut
          cases k with
          | zero => rfl
          | succ k => exact (hcut (by simp)).elim
      rw [hnone,append_nil,← h.levels]
      simp
    | remove level paths =>
      rw [completeRecords] at hcut ⊢
      generalize (manifestFraming.within n _).length = k at hcut ⊢
      rw [records] at hcut ⊢
      split
      · rename_i hnothing
        rw [if_pos hnothing] at hcut
        exact (hcut take_nil).elim
      · simp only [← map_take,any_drops]
        rw [replayRecords_append,filesAt_foldl_del,← h.levels]
        split
        · rename_i hi
          simp [hi]
        · rename_i hi
          simp [hi]

end VersionState

namespace ManifestProcess

/-- In an open session the file holds complete records only, and they agree with the memory. -/
def Logged (p : ManifestProcess) : Prop := ∀ v, p.session = some v →
  ∃ es, p.files.active = some (es.flatMap manifestRecord) ∧ v.Agrees es

lemma agrees_restored (d : ManifestDirectory) :
    (exec apply ⟨d,true⟩ d.startCalls).active = some (snapshotBytes d.live) ∧
      (VersionState.restored d.live).Agrees (liveEdits d.live) := by
  obtain ⟨-,hactive⟩ := reads_openCalls d
  refine ⟨?_,fits_liveEdits_manifestLevels _,?_,?_,?_⟩
  · rw [ManifestDirectory.startCalls,exec_append]
    exact (reads_rewriteSnapshotCalls hactive d.live).2
  · intro i
    rw [VersionState.restored,filesAt_resizeLevels,filesAt_replayRecords_liveEdits]
  · intro i
    rw [VersionState.restored,filesAt_resizeLevels,filesAt_replayRecords_liveEdits]
  · simp only [VersionState.restored]
    split
    · exact Nat.mod_lt _ (by norm_num)
    · norm_num

theorem Logged.step {p p' : ManifestProcess} (h : p.Logged) {e : ManifestEvent} (he : e.Fits)
    (hstep : p.step e = some p') : p'.Logged := by
  intro v' hv'
  cases e with
  | start =>
    rw [ManifestProcess.step] at hstep
    split at hstep
    · cases hstep
    · obtain rfl := some.inj hstep
      obtain rfl := some.inj hv'
      exact ⟨_,agrees_restored p.files⟩
  | edit e =>
    obtain ⟨v,hv,rfl⟩ := map_eq_some_iff.mp hstep
    obtain rfl := some.inj hv'
    obtain ⟨es,hactive,hagrees⟩ := h v hv
    refine ⟨es ++ v.records e,?_,hagrees.edit he⟩
    simp [append,hactive]
  | nextFileNumber =>
    obtain ⟨v,hv,rfl⟩ := map_eq_some_iff.mp hstep
    obtain rfl := some.inj hv'
    obtain ⟨es,hactive,hagrees⟩ := h v hv
    exact ⟨es,hactive,hagrees.fits,hagrees.levels,hagrees.recorded,Nat.mod_lt _ (by norm_num)⟩
  | ensureNextFileNumberAtLeast minNext =>
    obtain ⟨v,hv,rfl⟩ := map_eq_some_iff.mp hstep
    obtain rfl := some.inj hv'
    obtain ⟨es,hactive,hagrees⟩ := h v hv
    exact ⟨es,hactive,hagrees.fits,hagrees.levels,hagrees.recorded,max_lt hagrees.counter he⟩
  | crash e bytes =>
    obtain ⟨v,hv,rfl⟩ := map_eq_some_iff.mp hstep
    cases hv'

/-- However many sessions came before, and wherever a crash cuts the records of an edit, the
next session starts from the levels after the last edit whose records are complete, less the
files that the complete records of the cut edit drop. -/
theorem levels_after_crash (d : ManifestDirectory) {events : List ManifestEvent}
    (hfits : ∀ e ∈ events, e.Fits) {p : ManifestProcess} (hrun : run step ⟨d,none⟩ events = some p)
    {v : VersionState} (hv : p.session = some v) {e : VersionEdit} (he : e.Fits) (bytes : ℕ) :
    ∃ p' v', run step p [.crash e bytes,.start] = some p' ∧ p'.session = some v' ∧
      ∀ i, filesAt v'.levels i =
        if completeRecords bytes (v.records e) = v.records e then filesAt (v.edit e).levels i
        else (filesAt v.levels i).filter fun m =>
          !(completeRecords bytes (v.records e)).any (Edit.drops i m) := by
  have hlogged : p.Logged := by
    refine Runs.invariant (fun _ _ _ h he hs => Logged.step h he hs) ?_ hrun (fun _ hv => by cases hv)
    exact meets_of_forall fun e he _ => hfits e he
  obtain ⟨es,hactive,hagrees⟩ := hlogged v hv
  obtain ⟨d',hd'⟩ : ∃ d', d' = append p.files (((v.records e).flatMap manifestRecord).take bytes) := ⟨_,rfl⟩
  have hlog : d'.log = es.flatMap manifestRecord ++ ((v.records e).flatMap manifestRecord).take bytes := by
    simp [hd',append,ManifestDirectory.log,hactive]
  refine ⟨⟨(exec apply ⟨d',true⟩ d'.startCalls).toManifestDirectory,
    some (.restored d'.live)⟩,.restored d'.live,by simp [run,step,hv,hd'],rfl,?_⟩
  intro i
  rw [VersionState.restored,filesAt_resizeLevels,ManifestDirectory.live_eq,hlog,manifestLevels,
    manifestEdits_take hagrees.fits (hagrees.fits_records he),VersionState.filesAt_replay_complete hagrees]

/-- The level lists in memory after these events on a new directory, if a session is open. -/
def levelsAfter (events : List ManifestEvent) : Option (LevelLists Bytes) :=
  (run step ⟨⟨none,none,none⟩,none⟩ events).bind fun p => p.session.map VersionState.levels

/-- The second session of a new directory, cut inside the record of an addition. -/
theorem levels_after_crash_in_addition : ∃ p v,
    run step ⟨⟨none,none,none⟩,none⟩ [.start,.edit (.add 0 (ascii ['1','.','s','s','t'])),
      .crash (.remove 1 []) 0,.start] = some p ∧ p.session = some v ∧
    ∃ p' v', run step p [.crash (.add 0 (ascii ['2','.','s','s','t'])) 9,.start] = some p' ∧
      p'.session = some v' ∧ ∀ i, filesAt v'.levels i =
        if completeRecords 9 (v.records (.add 0 (ascii ['2','.','s','s','t']))) =
            v.records (.add 0 (ascii ['2','.','s','s','t']))
        then filesAt (v.edit (.add 0 (ascii ['2','.','s','s','t']))).levels i
        else (filesAt v.levels i).filter fun m =>
          !(completeRecords 9 (v.records (.add 0 (ascii ['2','.','s','s','t'])))).any (Edit.drops i m) := by
  obtain ⟨p,hp⟩ := isSome_iff_exists.mp (show (run step ⟨⟨none,none,none⟩,none⟩
    [.start,.edit (.add 0 (ascii ['1','.','s','s','t'])),.crash (.remove 1 []) 0,.start]).isSome by
      decide +kernel)
  obtain ⟨v,hv⟩ := isSome_iff_exists.mp (show p.session.isSome by
    have hopen : (run step ⟨⟨none,none,none⟩,none⟩ [.start,.edit (.add 0 (ascii ['1','.','s','s','t'])),
        .crash (.remove 1 []) 0,.start]).all fun p => p.session.isSome := by decide +kernel
    rwa [hp] at hopen)
  exact ⟨p,v,hp,hv,levels_after_crash _ (by decide) hp hv (by decide) 9⟩

/-- A crash between the two records of one removal leaves neither what was listed before it
nor what is listed after it. -/
theorem levels_between_records :
    (levelsAfter [.start,.edit (.add 0 (ascii ['1','.','s','s','t'])),
      .edit (.add 0 (ascii ['2','.','s','s','t']))]).map (filesAt · 0) =
        some [⟨ascii ['1','.','s','s','t'],1⟩,⟨ascii ['2','.','s','s','t'],2⟩] ∧
    (levelsAfter [.start,.edit (.add 0 (ascii ['1','.','s','s','t'])),
      .edit (.add 0 (ascii ['2','.','s','s','t'])),
      .edit (.remove 0 [ascii ['1','.','s','s','t'],ascii ['2','.','s','s','t']])]).map (filesAt · 0) =
        some [] ∧
    (levelsAfter [.start,.edit (.add 0 (ascii ['1','.','s','s','t'])),
      .edit (.add 0 (ascii ['2','.','s','s','t'])),
      .crash (.remove 0 [ascii ['1','.','s','s','t'],ascii ['2','.','s','s','t']]) 40,
      .start]).map (filesAt · 0) = some [⟨ascii ['2','.','s','s','t'],2⟩] := by
  decide +kernel

end ManifestProcess
end TitanKV.Minikv
