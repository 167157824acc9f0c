import TitanKV.Minikv.ChronicleLogs
import TitanKV.Minikv.Server
import TitanKV.Minikv.WalTear

/-! Writes that fail in the WAL. When a `write` of `WAL::append` or the `fdatasync` behind it fails,
`doWriteGroup` returns before it touches the MemTable; what has reached the file stays there. A failed
write that leaves no trace is compared with one that was never made: the two databases differ only in
WAL files, and there only in bytes that no replay reads. -/
namespace TitanKV.Minikv
open List Runs FsOp

/-- `doWriteGroup` with the outcomes of its calls; `synced` is false if `fdatasync` is called and
fails. The sequence numbers are taken before anything can fail. -/
def DBImpl.tryWriteGroup (db : DBImpl) (group : WriteGroup) (header payload : WriteOutcome) (synced : Bool) :
    Status × DBImpl :=
  if group.isEmpty then (.Ok,db)
  else
    let appended := walAppend [] (encodeGroup group) header payload
    let logged := { db with
      seq := db.seq+group.flatten.length
      disk := db.disk.apply (.wal (.append db.currentWal appended.2)) }
    if appended.1.ok = false then (appended.1,logged)
    else if synced = false then (.IOError "WAL fsync failed",logged)
    else
      (.Ok,{ logged with memtable := ⟨db.memtable.id,applyGroup db.memtable.table db.seq group⟩ }.maybeFlush)

def DBImpl.skipWriteGroup (db : DBImpl) (group : WriteGroup) : DBImpl :=
  { db with seq := db.seq+group.flatten.length }

/-- The same write if it is never made in case it fails. -/
def DBImpl.erasedWriteGroup (db : DBImpl) (group : WriteGroup) (header payload : WriteOutcome) (synced : Bool) :
    DBImpl :=
  if (db.tryWriteGroup group header payload synced).1.ok then (db.tryWriteGroup group header payload synced).2
  else db.skipWriteGroup group

inductive WriteEvent
  | life (e : LifeEvent)
  | write (group : WriteGroup) (header payload : WriteOutcome) (synced : Bool)

namespace Life

/-- A step of a session in which no call fails. -/
def step (s : Life) (e : LifeEvent) : Option Life := (Chronicle.step ⟨s,.blank⟩ e).map Chronicle.life

def writeStep (s : Life) : WriteEvent → Option Life
  | .life e => s.step e
  | .write group header payload synced =>
    match s with
    | .down _ => none
    | .up t => some (.up { t with db := (t.db.tryWriteGroup group header payload synced).2 })

def erasedStep (s : Life) : WriteEvent → Option Life
  | .life e => s.step e
  | .write group header payload synced =>
    match s with
    | .down _ => none
    | .up t => some (.up { t with db := t.db.erasedWriteGroup group header payload synced })

/-- Every `get` and every iterator has the same result. -/
def SameReads : Life → Life → Prop
  | .up t,.up t' => (∀ k, t.db.get k = t'.db.get k) ∧ ∀ Q, t.db.newIterator Q = t'.db.newIterator Q
  | .down _,.down _ => True
  | _,_ => False

/-- Whatever happens in these sessions, reads are answered as if the failed writes had never been made. -/
def LeavesNoTrace (s : Life) (events : List WriteEvent) : Prop :=
  ∀ s', run writeStep s events = some s' → ∃ t', run erasedStep s events = some t' ∧ s'.SameReads t'

/-- The WAL file that the session appends to does not end in a torn record. -/
def EndsWhole : Life → Prop
  | .up t => ∀ w ∈ t.db.disk.wals, w.1 = t.db.currentWal → WholeRecords w.2
  | .down _ => True

/-- Records are appended behind complete ones only, and `fdatasync` does not fail. -/
def Careful (s : Life) : WriteEvent → Prop
  | .write _ _ _ synced => synced = true ∧ s.EndsWhole
  | .life (.work (.write _)) | .life (.crash (.append _ _)) => s.EndsWhole
  | _ => True

end Life

/-- A WAL file as it is and as it would be without failed writes: a replay reads the same, and only
torn bytes at the end are additional. -/
def Shadows (w w' : ℕ × Bytes) : Prop :=
  w.1 = w'.1 ∧ walReplay w.2 = walReplay w'.2 ∧ (WholeRecords w.2 → w.2 = w'.2)

lemma Shadows.refl (w : ℕ × Bytes) : Shadows w w := ⟨rfl,rfl,fun _ => rfl⟩

section Wals
variable {ws ws' : Directory ℕ Bytes}

section
variable (h : List.Forall₂ Shadows ws ws')
include h

lemma names_shadows : ws'.names = ws.names := by
  rw [Directory.names,Directory.names]
  induction h with
  | nil => rfl
  | cons hw _ ih => rw [map_cons,map_cons,ih,hw.1]

/-- What is appended to complete records is appended to the same bytes. -/
lemma append_shadows {n : ℕ} (hwhole : ∀ w ∈ ws, w.1 = n → WholeRecords w.2)
    (data : Bytes) : List.Forall₂ Shadows (ws.update n (· ++ data)) (ws'.update n (· ++ data)) := by
  induction h with
  | nil => exact .nil
  | @cons w w' _ _ hw _ ih =>
    refine .cons ?_ (ih fun x hx => hwhole x (by simp [hx]))
    dsimp only
    by_cases hn : w.1 = n
    · have hsame := hw.2.2 (hwhole w (by simp) hn)
      rw [if_pos hn,if_pos (hw.1.symm.trans hn),hsame]
      exact .refl _
    · rw [if_neg hn,if_neg fun hn' => hn (hw.1.trans hn')]
      exact hw

lemma tear_shadows {n : ℕ} (hwhole : ∀ w ∈ ws, w.1 = n → WholeRecords w.2)
    {data : Bytes} {m : ℕ} (hm : m<(walRecord data).length) :
    List.Forall₂ Shadows (ws.update n (· ++ (walRecord data).take m)) ws' := by
  induction h with
  | nil => exact .nil
  | @cons w w' _ _ hw _ ih =>
    refine .cons ?_ (ih fun x hx => hwhole x (by simp [hx]))
    dsimp only
    by_cases hn : w.1 = n
    · have hfile := hwhole w (by simp) hn
      have hreplay := hfile.walReplay_cut hm
      rw [if_pos hn]
      refine ⟨hn.symm.trans hw.1,hreplay.trans hw.2.1,fun hall => ?_⟩
      -- complete records that replay as those before them are those before them
      have hback : w.2 ++ (walRecord data).take m = w.2 := by
        rw [WholeRecords,hreplay,← hfile] at hall
        exact hall
      exact hback.trans (hw.2.2 hfile)
    · rw [if_neg hn]
      exact hw

lemma unlink_shadows (n : ℕ) :
    List.Forall₂ Shadows (ws.unlink n) (ws'.unlink n) :=
  rel_filter (fun w w' hw => by simp [hw.1]) h

end

lemma orderedInsert_shadows {w w' : ℕ × Bytes} (hw : Shadows w w') (h : List.Forall₂ Shadows ws ws') :
    List.Forall₂ Shadows (ws.orderedInsert (fun a b => a.1≤b.1) w)
      (ws'.orderedInsert (fun a b => a.1≤b.1) w') := by
  induction h with
  | nil => exact .cons hw .nil
  | @cons v v' _ _ hv hrest ih =>
    rw [orderedInsert_cons,orderedInsert_cons,hw.1,hv.1]
    split
    · exact .cons hw (.cons hv hrest)
    · exact .cons hv ih

lemma insertionSort_shadows (h : List.Forall₂ Shadows ws ws') :
    List.Forall₂ Shadows (ws.insertionSort fun a b => a.1≤b.1) (ws'.insertionSort fun a b => a.1≤b.1) := by
  induction h with
  | nil => exact .nil
  | cons hw _ ih =>
    exact orderedInsert_shadows hw ih

lemma replay_shadows (h : List.Forall₂ Shadows ws ws') (s : MemTable × ℕ) :
    ws'.foldl (fun s w => replayWalFile s w.2) s = ws.foldl (fun s w => replayWalFile s w.2) s := by
  refine (rel_foldl (P := Eq) ?_ rfl h).symm
  intro s _ rfl w w' hw
  simp only [replayWalFile,hw.2.1]

end Wals

structure Disk.Shadows (d d' : Disk) : Prop where
  tables : d'.tables = d.tables
  manifest : d'.manifest = d.manifest
  wals : List.Forall₂ Minikv.Shadows d.wals d'.wals

def FsOp.appends : FsOp → Bool
  | .wal (.append _ _) => true
  | _ => false

namespace Disk
variable {d d' : Disk}

lemma Shadows.refl (d : Disk) : d.Shadows d := ⟨rfl,rfl,forall₂_same.mpr fun w _ => .refl w⟩

lemma Shadows.entriesOf (h : d.Shadows d') : d'.entriesOf = d.entriesOf := by
  funext path
  rw [Disk.entriesOf,Disk.entriesOf,Disk.reader,Disk.reader,h.tables]

lemma Shadows.apply (h : d.Shadows d') {op : FsOp} (hop : op.appends = false) :
    (d.apply op).Shadows (d'.apply op) := by
  have hnames := names_shadows h.wals
  cases op with
  | table op => exact ⟨congrArg op.apply h.tables,h.manifest,h.wals⟩
  | manifest op => exact ⟨h.tables,congrArg op.apply h.manifest,h.wals⟩
  | wal op =>
    refine ⟨h.tables,h.manifest,?_⟩
    cases op with
    | create n =>
      simp only [Disk.apply,WalOp.apply,hnames]
      split
      · exact h.wals
      · exact rel_append h.wals (forall₂_same.mpr fun w _ => .refl w)
    | append n data => cases hop
    | unlink n => exact unlink_shadows h.wals n

lemma Shadows.exec (h : d.Shadows d') {ops : List FsOp} (hops : ∀ op ∈ ops, op.appends = false) :
    (d.exec ops).Shadows (d'.exec ops) := by
  induction ops generalizing d d' with
  | nil => exact h
  | cons op ops ih => exact ih (h.apply (hops op (by simp))) fun op' hop => hops op' (by simp [hop])

end Disk

def DBImpl.onDisk (db : DBImpl) (d : Disk) : DBImpl := { db with disk := d }

def Threads.onDisk (t : Threads) (d : Disk) : Threads := { t with db := t.db.onDisk d }

section Calls

lemma appends_recordOps (r : ManifestRecord) : ∀ op ∈ recordOps r, op.appends = false := by
  simp [recordOps,appends]

lemma FlushThread.appends_calls (f : FlushThread) : ∀ op ∈ f.calls, op.appends = false := by
  cases f with
  | listing entry path => exact appends_recordOps _
  | unlinking wals | dropping entry wals => cases wals <;> simp [calls,appends]
  | _ => simp [calls,appends]

lemma CompactionThread.appends_calls (levels : Levels) (c : CompactionThread) :
    ∀ op ∈ c.calls levels, op.appends = false := by
  cases c with
  | listing level sources newFile merged =>
    rw [calls]
    split
    · simp [appends]
    · exact appends_recordOps _
  | retracting level sources =>
    intro op hop
    obtain ⟨r,-,hr⟩ := mem_flatMap.mp hop
    exact appends_recordOps r op hr
  | unlinking paths => cases paths <;> simp [calls,appends]
  | _ => simp [calls,appends]

lemma appends_recoverOps (options : Options) (d : Disk) : ∀ op ∈ recoverOps options d, op.appends = false := by
  intro op hop
  simp only [recoverOps,mem_append,mem_map] at hop
  rcases hop with ((⟨o,-,rfl⟩ | ⟨o,-,rfl⟩) | ⟨o,-,rfl⟩) | hop
  · rfl
  · rfl
  · rfl
  · split at hop
    · rw [mem_singleton.mp hop]
      rfl
    · simp at hop

end Calls

namespace Threads
variable {t t' : Threads} {d : Disk}

lemma flushStep_onDisk (t : Threads) (d : Disk) :
    (t.onDisk d).flushStep = t.flushStep.map fun t' => t'.onDisk (d.exec t.flusher.calls) := by
  obtain ⟨db,f,c⟩ := t
  cases f with
  | waiting =>
    simp only [flushStep,onDisk,DBImpl.onDisk,DBImpl.calls,FlushThread.calls]
    split
    · rfl
    · split <;> rfl
  | unlinking wals | dropping entry wals => cases wals <;> rfl
  | _ => rfl

lemma disk_flushStep (h : t.flushStep = some t') : t'.db.disk = t.db.disk.exec t.flusher.calls := by
  have hsame := t.flushStep_onDisk t.db.disk
  change t.flushStep = _ at hsame
  rw [h,Option.map_some,Option.some.injEq] at hsame
  exact congrArg (·.db.disk) hsame

lemma compactStep_onDisk (t : Threads) (h : d.entriesOf = t.db.disk.entriesOf) : (t.onDisk d).compactStep =
    t.compactStep.map fun t' => t'.onDisk (d.exec (t.compactor.calls t.db.version.levels)) := by
  obtain ⟨db,f,c⟩ := t
  cases c with
  | reading level sources rest all =>
    cases rest with
    | nil => rfl
    | cons path rest =>
      have hread : d.entriesOf path = db.disk.entriesOf path := congrFun h path
      change some (Threads.mk _ _ (.reading level sources rest (all ++ d.entriesOf path))) = _
      rw [hread]
      rfl
  | listing level sources newFile merged =>
    simp only [compactStep,onDisk]
    split <;> rfl
  | unlinking paths => cases paths <;> rfl
  | _ => rfl

lemma disk_compactStep (h : t.compactStep = some t') :
    t'.db.disk = t.db.disk.exec (t.compactor.calls t.db.version.levels) := by
  have hsame := t.compactStep_onDisk rfl
  change t.compactStep = _ at hsame
  rw [h,Option.map_some,Option.some.injEq] at hsame
  exact congrArg (·.db.disk) hsame

end Threads

namespace DBImpl
variable {db : DBImpl} {group : WriteGroup} {d d' : Disk}

def rotateOps (db : DBImpl) : List FsOp :=
  if db.shouldFlush then [.wal (.create db.version.nextFileNumber)] else []

lemma appends_rotateOps (db : DBImpl) : ∀ op ∈ db.rotateOps, op.appends = false := by
  rw [rotateOps]
  split <;> simp [appends]

lemma maybeFlush_onDisk (db : DBImpl) (d : Disk) :
    (db.onDisk d).maybeFlush = db.maybeFlush.onDisk (d.exec db.rotateOps) := by
  have hfull : (db.onDisk d).shouldFlush = db.shouldFlush := rfl
  rw [maybeFlush,maybeFlush,rotateOps,hfull]
  split <;> rfl

lemma disk_maybeFlush (db : DBImpl) : db.maybeFlush.disk = db.disk.exec db.rotateOps :=
  congrArg disk (db.maybeFlush_onDisk db.disk)

lemma doWriteGroup_onDisk (h : db.disk.Shadows d')
    (hwhole : ∀ w ∈ db.disk.wals, w.1 = db.currentWal → WholeRecords w.2) :
    ∃ d₁, (db.onDisk d').doWriteGroup group = (db.doWriteGroup group).onDisk d₁ ∧
      (db.doWriteGroup group).disk.Shadows d₁ := by
  rw [doWriteGroup,doWriteGroup]
  split
  · exact ⟨d',rfl,h⟩
  · rename_i hne
    have hgroup : group.isEmpty = false := by simpa using hne
    have happend : (db.writeGroup group).disk.Shadows ((db.onDisk d').writeGroup group).disk := by
      rw [writeGroup_eq db hgroup,writeGroup_eq (db.onDisk d') hgroup]
      exact ⟨h.tables,h.manifest,append_shadows h.wals hwhole _⟩
    have hsame : (db.onDisk d').writeGroup group =
        (db.writeGroup group).onDisk ((db.onDisk d').writeGroup group).disk := by
      rw [writeGroup_eq db hgroup,writeGroup_eq (db.onDisk d') hgroup]
      rfl
    refine ⟨_,(congrArg maybeFlush hsame).trans (maybeFlush_onDisk _ _),?_⟩
    rw [disk_maybeFlush]
    exact happend.exec (appends_rotateOps _)

variable {header payload : WriteOutcome}

lemma tryWriteGroup_of_ok {synced : Bool}
    (h : (db.tryWriteGroup group header payload synced).1.ok = true) :
    (db.tryWriteGroup group header payload synced).2 = db.doWriteGroup group := by
  rw [tryWriteGroup] at h ⊢
  rw [doWriteGroup]
  split
  · rfl
  · rename_i hne
    rw [if_neg hne] at h
    dsimp only at h ⊢
    split
    · rename_i hfailed
      rw [if_pos hfailed,hfailed] at h
      cases h
    · rename_i hok
      rw [if_neg hok] at h
      split
      · rename_i hsync
        rw [if_pos hsync] at h
        cases h
      · have hrecord : (walAppend [] (encodeGroup group) header payload).2 = walRecord (encodeGroup group) :=
          WalEvent.whole_iff.mp (whole_of_acknowledged (e := .append (encodeGroup group) header payload)
            (by simpa [WalEvent.acknowledged] using hok))
        rw [hrecord,writeGroup_eq db (by simpa using hne)]

lemma tryWriteGroup_of_failed
    (h : (db.tryWriteGroup group header payload true).1.ok = false) :
    ∃ m < (walRecord (encodeGroup group)).length, (db.tryWriteGroup group header payload true).2 =
      (db.skipWriteGroup group).onDisk
        (db.disk.apply (.wal (.append db.currentWal ((walRecord (encodeGroup group)).take m)))) := by
  rw [tryWriteGroup] at h ⊢
  split
  · rename_i hempty
    rw [if_pos hempty] at h
    cases h
  · rename_i hne
    rw [if_neg hne] at h
    dsimp only at h ⊢
    split
    · rename_i hfailed
      obtain ⟨m,hm,htorn⟩ := walAppend_failed hfailed
      exact ⟨m,hm,by rw [htorn]; rfl⟩
    · rename_i hok
      rw [if_neg hok,if_neg (by simp)] at h
      cases h

lemma status_tryWriteGroup_onDisk (d : Disk) (header payload : WriteOutcome) (synced : Bool) :
    ((db.onDisk d).tryWriteGroup group header payload synced).1 =
      (db.tryWriteGroup group header payload synced).1 := by
  rw [tryWriteGroup,tryWriteGroup]
  split
  · rfl
  · dsimp only
    split
    · rfl
    · split <;> rfl

end DBImpl

section Recover
variable {d d' : Disk}

lemma foldl_ensure_shadows {ws ws' : Directory ℕ Bytes} (h : List.Forall₂ Shadows ws ws') (v : Version) :
    ws'.foldl (fun v w => v.ensureNextFileNumberAtLeast (w.1+1)) v =
      ws.foldl (fun v w => v.ensureNextFileNumberAtLeast (w.1+1)) v := by
  refine (rel_foldl (P := Eq) ?_ rfl h).symm
  intro v _ rfl w w' hw
  simp only [hw.1]

lemma Disk.Shadows.recoverVersion (h : d.Shadows d') : recoverVersion d' = recoverVersion d := by
  rw [Minikv.recoverVersion,Minikv.recoverVersion,listWalFiles,listWalFiles,
    foldl_ensure_shadows (insertionSort_shadows h.wals),Disk.listed,Disk.listed,h.manifest]

lemma Disk.Shadows.recoverOps (h : d.Shadows d') (options : Options) :
    recoverOps options d' = recoverOps options d := by
  have hempty : d'.wals.isEmpty = d.wals.isEmpty := by
    rw [Bool.eq_iff_iff,isEmpty_iff_length_eq_zero,isEmpty_iff_length_eq_zero,h.wals.length_eq]
  rw [Minikv.recoverOps,Minikv.recoverOps,h.recoverVersion,Disk.listed,Disk.listed,h.manifest,h.tables,hempty]

lemma Disk.Shadows.recover (h : d.Shadows d') (options : Options) : DBImpl.recover options d' =
    (DBImpl.recover options d).onDisk (d'.exec (Minikv.recoverOps options d)) := by
  have hsorted : List.Forall₂ Minikv.Shadows (listWalFiles d) (listWalFiles d') := insertionSort_shadows h.wals
  have hnames := names_shadows hsorted
  have hempty : (listWalFiles d').isEmpty = (listWalFiles d).isEmpty := by
    rw [Bool.eq_iff_iff,isEmpty_iff_length_eq_zero,isEmpty_iff_length_eq_zero,hsorted.length_eq]
  have hlast : (listWalFiles d').getLast?.map Prod.fst = (listWalFiles d).getLast?.map Prod.fst := by
    rw [← getLast?_map,← getLast?_map]
    exact congrArg getLast? hnames
  simp only [DBImpl.recover,DBImpl.onDisk,replay_shadows hsorted,h.recoverVersion,h.recoverOps,hnames,hempty]
  cases hd : (listWalFiles d).getLast? with
  | none =>
    cases hd' : (listWalFiles d').getLast? with
    | none => rfl
    | some w' => simp [hd,hd'] at hlast
  | some w =>
    cases hd' : (listWalFiles d').getLast? with
    | none => simp [hd,hd'] at hlast
    | some w' =>
      rw [hd,hd',Option.map_some,Option.map_some,Option.some.injEq] at hlast
      dsimp only
      rw [hlast]

end Recover

namespace Life

inductive Shadows : Life → Life → Prop
  | down {d d' : Disk} (h : d.Shadows d') : Shadows (.down d) (.down d')
  | up {t : Threads} {d' : Disk} (h : t.db.disk.Shadows d') : Shadows (.up t) (.up (t.onDisk d'))

variable {s s₂ s' : Life}

lemma Shadows.refl (s : Life) : s.Shadows s := by
  cases s with
  | down d => exact .down (.refl d)
  | up t => exact .up (t := t) (.refl _)

lemma Shadows.sameReads (h : s.Shadows s₂) : s.SameReads s₂ := by
  cases h with
  | down h => trivial
  | @up t d' h =>
    have hreader : d'.reader = t.db.disk.reader := by
      funext path
      rw [Disk.reader,Disk.reader,h.tables]
    refine ⟨fun k => ?_,fun Q => ?_⟩
    · simp only [DBImpl.get,Threads.onDisk,DBImpl.onDisk,hreader]
    · simp only [DBImpl.newIterator,Threads.onDisk,DBImpl.onDisk,hreader]

lemma Shadows.work {t t' : Threads} {d' : Disk} (h : t.db.disk.Shadows d') {e : ThreadEvent}
    (hcareful : (Life.up t).Careful (.life (.work e))) (hstep : t.step e = some t') :
    ∃ d₁, (t.onDisk d').step e = some (t'.onDisk d₁) ∧ t'.db.disk.Shadows d₁ := by
  cases e with
  | write group =>
    cases hstep
    obtain ⟨d₁,hwrite,hd₁⟩ := @DBImpl.doWriteGroup_onDisk t.db group d' h hcareful
    exact ⟨d₁,congrArg (fun db => some (Threads.mk db t.flusher t.compactor)) hwrite,hd₁⟩
  | flush =>
    have hflush : t.flushStep = some t' := hstep
    refine ⟨d'.exec t.flusher.calls,?_,?_⟩
    · change (t.onDisk d').flushStep = _
      rw [Threads.flushStep_onDisk,hflush]
      rfl
    · rw [Threads.disk_flushStep hflush]
      exact h.exec t.flusher.appends_calls
  | merge level =>
    obtain ⟨hwaiting,hready,rfl⟩ := Threads.merge_eq hstep
    have hmergeable : (t.db.onDisk d').mergeable level = true := hready
    refine ⟨d',?_,h⟩
    simp only [Threads.step,Threads.onDisk,hwaiting,hmergeable,if_true]
    rfl
  | compact =>
    have hcompact : t.compactStep = some t' := hstep
    refine ⟨d'.exec (t.compactor.calls t.db.version.levels),?_,?_⟩
    · change (t.onDisk d').compactStep = _
      rw [Threads.compactStep_onDisk t h.entriesOf,hcompact]
      rfl
    · rw [Threads.disk_compactStep hcompact]
      exact h.exec (t.compactor.appends_calls _)

lemma Shadows.crash {t : Threads} {d d' : Disk} (h : t.db.disk.Shadows d') {point : CrashPoint}
    (hcareful : (Life.up t).Careful (.life (.crash point))) (hcrash : t.crash point = some d) :
    ∃ d₁, (t.onDisk d').crash point = some d₁ ∧ d.Shadows d₁ := by
  cases point with
  | between =>
    cases hcrash
    exact ⟨d',rfl,h⟩
  | append group bytes =>
    rw [Threads.crash] at hcrash ⊢
    split at hcrash
    · cases hcrash
    · rename_i hne
      cases hcrash
      exact ⟨_,if_neg hne,⟨h.tables,h.manifest,append_shadows h.wals hcareful _⟩⟩
  | flush calls =>
    rw [Threads.crash] at hcrash ⊢
    split at hcrash
    · rename_i hlt
      cases hcrash
      exact ⟨_,if_pos hlt,h.exec fun op hop => t.flusher.appends_calls op (mem_of_mem_take hop)⟩
    · cases hcrash
  | compact calls =>
    rw [Threads.crash] at hcrash ⊢
    split at hcrash
    · rename_i hlt
      cases hcrash
      exact ⟨_,if_pos hlt,h.exec fun op hop => t.compactor.appends_calls _ op (mem_of_mem_take hop)⟩
    · cases hcrash

lemma Shadows.step (h : s.Shadows s₂) {e : LifeEvent} (hcareful : s.Careful (.life e)) (hstep : s.step e = some s') :
    ∃ s₂', s₂.step e = some s₂' ∧ s'.Shadows s₂' := by
  cases e with
  | start options =>
    cases h with
    | up h => cases hstep
    | @down d d' h =>
      cases hstep
      refine ⟨_,rfl,?_⟩
      have hsame : Threads.opened options d' =
          (Threads.opened options d).onDisk (d'.exec (recoverOps options d)) := by
        rw [Threads.opened,h.recover options]
        rfl
      rw [hsame]
      exact .up (h.exec (appends_recoverOps options d))
  | cutStart options calls =>
    cases h with
    | up h => cases hstep
    | @down d d' h =>
      simp only [Life.step,Chronicle.step,h.recoverOps] at hstep ⊢
      split at hstep
      · rename_i hlt
        cases hstep
        rw [if_pos hlt]
        exact ⟨_,rfl,.down (h.exec fun op hop => appends_recoverOps options d op (mem_of_mem_take hop))⟩
      · cases hstep
  | work e =>
    cases h with
    | down h => cases hstep
    | @up t d' h =>
      simp only [Life.step,Chronicle.step,Option.map_map] at hstep ⊢
      obtain ⟨t',ht',rfl⟩ := Option.map_eq_some_iff.mp hstep
      obtain ⟨d₁,hstep₁,hd₁⟩ := Shadows.work h hcareful ht'
      rw [hstep₁]
      exact ⟨_,rfl,.up hd₁⟩
  | crash point =>
    cases h with
    | down h => cases hstep
    | @up t d' h =>
      simp only [Life.step,Chronicle.step,Option.map_map] at hstep ⊢
      obtain ⟨d,hd,rfl⟩ := Option.map_eq_some_iff.mp hstep
      obtain ⟨d₁,hcrash₁,hd₁⟩ := Shadows.crash h hcareful hd
      rw [hcrash₁]
      exact ⟨_,rfl,.down hd₁⟩

lemma Shadows.write {t : Threads} {d' : Disk} (h : t.db.disk.Shadows d') (group : WriteGroup)
    (header payload : WriteOutcome) (hwhole : (Life.up t).EndsWhole) :
    ∃ s₂', (Life.up (t.onDisk d')).erasedStep (.write group header payload true) = some s₂' ∧
      (Life.up { t with db := (t.db.tryWriteGroup group header payload true).2 }).Shadows s₂' := by
  refine ⟨_,rfl,?_⟩
  have hstatus := congrArg Status.ok (@DBImpl.status_tryWriteGroup_onDisk t.db group d' header payload true)
  change Shadows _ (.up ⟨(t.db.onDisk d').erasedWriteGroup group header payload true,t.flusher,t.compactor⟩)
  cases hok : (t.db.tryWriteGroup group header payload true).1.ok with
  | true =>
    have hok' := hstatus.trans hok
    obtain ⟨d₁,hwrite,hd₁⟩ := @DBImpl.doWriteGroup_onDisk t.db group d' h hwhole
    rw [DBImpl.erasedWriteGroup,if_pos hok',DBImpl.tryWriteGroup_of_ok hok,DBImpl.tryWriteGroup_of_ok hok',hwrite]
    exact .up hd₁
  | false =>
    have hok' := hstatus.trans hok
    obtain ⟨m,hm,hfailed⟩ := DBImpl.tryWriteGroup_of_failed hok
    rw [DBImpl.erasedWriteGroup,if_neg (by simp [hok']),hfailed]
    exact .up ⟨h.tables,h.manifest,tear_shadows h.wals hwhole hm⟩

lemma Shadows.writeStep (h : s.Shadows s₂) {e : WriteEvent} (hcareful : s.Careful e)
    (hstep : s.writeStep e = some s') : ∃ s₂', s₂.erasedStep e = some s₂' ∧ s'.Shadows s₂' := by
  cases e with
  | life e => exact h.step hcareful hstep
  | write group header payload synced =>
    obtain ⟨rfl,hwhole⟩ := hcareful
    cases h with
    | down h => cases hstep
    | up h =>
      cases hstep
      exact Shadows.write h group header payload hwhole

/-- As long as records are appended behind complete ones only and `fdatasync` does not fail, failed
writes leave no trace, in the process and over any number of crashes. -/
theorem leavesNoTrace_of_careful (s : Life) (events : List WriteEvent)
    (h : Meets Life.writeStep Careful s events) : s.LeavesNoTrace events := by
  have hrun : ∀ {s s₂ s' : Life}, s.Shadows s₂ → Meets Life.writeStep Careful s events →
      run Life.writeStep s events = some s' →
        ∃ s₂', run erasedStep s₂ events = some s₂' ∧ s'.Shadows s₂' := by
    clear h
    induction events with
    | nil =>
      intro s s₂ s' hs _ hrun
      cases hrun
      exact ⟨s₂,rfl,hs⟩
    | cons e events ih =>
      intro s s₂ s' hs hmeets hrun
      obtain ⟨t,ht,hrest⟩ := Option.bind_eq_some_iff.mp hrun
      obtain ⟨t₂,ht₂,hshadows⟩ := hs.writeStep hmeets.1 ht
      obtain ⟨s₂',hs₂',hend⟩ := ih hshadows (hmeets.2 t ht) hrest
      exact ⟨s₂',by rw [run,ht₂]; exact hs₂',hend⟩
  intro s' hs'
  obtain ⟨t',ht',hshadows⟩ := hrun (.refl s) h hs'
  exact ⟨t',ht',hshadows.sameReads⟩

def answer (k : Bytes) : Life → Option Bytes
  | .up t => (t.db.get k).toOption
  | .down _ => none

lemma LeavesNoTrace.answer_eq {events : List WriteEvent} (h : s.LeavesNoTrace events)
    (hrun : (run Life.writeStep s events).isSome = true) (k : Bytes) :
    (run Life.writeStep s events).bind (answer k) = (run erasedStep s events).bind (answer k) := by
  obtain ⟨s',hs'⟩ := Option.isSome_iff_exists.mp hrun
  obtain ⟨t',ht',hreads⟩ := h s' hs'
  rw [hs',ht',Option.bind_some,Option.bind_some]
  cases s' with
  | down d =>
    cases t' with
    | down d' => rfl
    | up t' => exact hreads.elim
  | up t =>
    cases t' with
    | down d' => exact hreads.elim
    | up t' => rw [answer,answer,hreads.1 k]

def fresh : Life := .down ⟨[],[],⟨none,none,none⟩⟩

instance (s : Life) : Decidable s.EndsWhole :=
  match s with
  | .up t => inferInstanceAs (Decidable (∀ w ∈ t.db.disk.wals, w.1 = t.db.currentWal → WholeRecords w.2))
  | .down _ => .isTrue trivial

instance (s : Life) (e : WriteEvent) : Decidable (s.Careful e) :=
  match e with
  | .write _ _ _ synced => inferInstanceAs (Decidable (synced = true ∧ s.EndsWhole))
  | .life (.work (.write _)) | .life (.crash (.append _ _)) => inferInstanceAs (Decidable s.EndsWhole)
  | .life (.start _) | .life (.cutStart _ _) | .life (.work .flush) | .life (.work (.merge _))
  | .life (.work .compact) | .life (.crash .between) | .life (.crash (.flush _)) | .life (.crash (.compact _)) =>
    .isTrue trivial

def refusedOverwrite : List WriteEvent :=
  [.life (.start ⟨100,6⟩),.write [[⟨.put,[107],[118]⟩]] .full .full true,
    .write [[⟨.put,[107],[119]⟩]] .error .full true,.write [[⟨.put,[108],[120]⟩]] .full .full true,
    .life (.crash .between),.life (.start ⟨100,6⟩)]

theorem leavesNoTrace_of_refused_overwrite : fresh.LeavesNoTrace refusedOverwrite ∧
    (run Life.writeStep fresh refusedOverwrite).bind (answer [107]) = some [118] :=
  ⟨leavesNoTrace_of_careful fresh refusedOverwrite (by decide +kernel),by decide +kernel⟩

/-- The record of a put is complete when `fdatasync` fails. `write` returns an error, and the next
session finds the key. -/
theorem not_leavesNoTrace_of_failed_sync : ¬ fresh.LeavesNoTrace [.life (.start ⟨100,6⟩),
    .write [[⟨.put,[107],[118]⟩]] .full .full false,.life (.crash .between),.life (.start ⟨100,6⟩)] := by
  intro h
  have hanswer := h.answer_eq (by decide +kernel) [107]
  revert hanswer
  decide +kernel

/-- A batch whose value ends with the record of the batch behind it. -/
def bait : WriteGroup := [[⟨.put,[107],walRecord (encodeGroup [[⟨.put,[108],[120]⟩]])⟩]]

/-- Its payload is cut off where that record begins; the next write then completes it. -/
theorem not_leavesNoTrace_of_completed_tear : ¬ fresh.LeavesNoTrace [.life (.start ⟨100,6⟩),
    .write bait .full (.short 10) true,.write [[⟨.put,[108],[120]⟩]] .full .full true,
    .life (.crash .between),.life (.start ⟨100,6⟩)] := by
  intro h
  have hanswer := h.answer_eq (by decide +kernel) [107]
  revert hanswer
  decide +kernel

end Life
end TitanKV.Minikv
