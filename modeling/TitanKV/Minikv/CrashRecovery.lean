import TitanKV.Minikv.CrashSteps

/-! What `recover` makes of files that hold a list of operations: a session in which the
MemTable holds what the WAL files hold and every file number is taken. -/
namespace TitanKV.Minikv
open Layers CrashPoints List

variable {d : Disk}

lemma listWalFiles_eq (h : d.wals.names.Pairwise (· < ·)) : listWalFiles d = d.wals := by
  apply Pairwise.insertionSort_eq
  exact (pairwise_map.mp h).imp fun hlt => Nat.le_of_lt hlt

/-- Seeing more WAL files leaves the levels alone and only raises the counter, above the
number of each of them. -/
lemma foldl_ensureNext (v : Version) (wals : Directory ℕ Bytes) :
    let v' := wals.foldl (fun v w => v.ensureNextFileNumberAtLeast (w.1+1)) v
    v'.levels = v.levels ∧ v.nextFileNumber≤v'.nextFileNumber ∧ ∀ n ∈ wals.names, n<v'.nextFileNumber := by
  induction wals generalizing v with
  | nil => exact ⟨rfl,le_rfl,fun n hn => by cases hn⟩
  | cons w wals ih =>
    obtain ⟨hlevels,hle,hall⟩ := ih (v.ensureNextFileNumberAtLeast (w.1+1))
    refine ⟨hlevels,(Nat.le_max_left _ _).trans hle,?_⟩
    intro n hn
    rcases mem_cons.mp hn with rfl | hn
    · exact Nat.lt_of_lt_of_le (Nat.lt_succ_self _) ((Nat.le_max_right _ _).trans hle)
    · exact hall n hn

lemma levels_recoverVersion (d : Disk) : (recoverVersion d).levels = resizeLevels d.listed 7 :=
  (foldl_ensureNext _ _).1

lemma lt_nextFileNumber_recoverVersion {n : ℕ} (h : n ∈ (listWalFiles d).names) :
    n<(recoverVersion d).nextFileNumber := (foldl_ensureNext _ _).2.2 n h

lemma fileNumber_lt_recoverVersion {i : ℕ} {m : SSTableMeta} (h : m ∈ filesAt d.listed i) :
    m.fileNumber<(recoverVersion d).nextFileNumber := by
  refine Nat.lt_of_lt_of_le ?_ (foldl_ensureNext _ _).2.1
  have hmax := Version.fileNumber_le_maxFileNumber h
  simp only [Version.restoreFrom]
  split <;> omega

variable (options : Options)

lemma wals_recoverOps (d : Disk) : (d.exec (recoverOps options d)).wals =
    if d.wals.isEmpty then [((recoverVersion d).nextFileNumber,[])] else d.wals := by
  rw [recoverOps,Disk.exec_append,Disk.exec_append,Disk.exec_append,Disk.exec_map_manifest,
    Disk.exec_map_table,Disk.exec_map_manifest]
  split
  · rename_i hempty
    have hnil := isEmpty_iff.mp hempty
    simp [Disk.apply,WalOp.apply,hnil,Directory.names]
  · rfl

/-- The newest-wins view right after `recover`: the replayed MemTable, then the files of
level 0 from the last added to the first. -/
def DBImpl.recoveredView (db : DBImpl) (k : Bytes) : Option (Option Bytes) :=
  ((newest db.memtable.table.chain k).map Entry.live).or
    (tableView db.disk (filesAt db.version.levels 0) k)

lemma DBImpl.filesAt_recover (d : Disk) (i : ℕ) :
    filesAt (recover options d).version.levels i = filesAt d.listed i := by
  change filesAt (if _ then _ else _ : Version).levels i = _
  split
  · change filesAt (recoverVersion d).levels i = _
    rw [levels_recoverVersion,filesAt_resizeLevels]
  · rw [levels_recoverVersion,filesAt_resizeLevels]

section Replay
variable {d : Disk} (options : Options) (hasc : d.wals.names.Pairwise (· < ·))
include hasc

lemma holds_recover : Holds (DBImpl.recover options d).memtable.table.chain (walOps d.wals) := by
  change Holds ((listWalFiles d).foldl (fun s w => replayWalFile s w.2) (MemTable.empty,0)).1.chain _
  rw [foldl_replayWalFile_eq,listWalFiles_eq hasc]
  have hempty : ∀ e ∈ MemTable.empty.chain, e.key.seq<0 := fun e he => by cases he
  exact MemTable.holds_putOps (walOps d.wals) hempty holds_nil

/-- All WAL files but the newest are retired, the newest is appended to, and new files get
numbers that none of them has. -/
lemma wals_recover : ∃ (older : Generation) (bytes : Bytes),
    (DBImpl.recover options d).disk.wals = older++[((DBImpl.recover options d).currentWal,bytes)] ∧
    (DBImpl.recover options d).obsoleteWals = older.names ∧
    (recoverVersion d).nextFileNumber≤(DBImpl.recover options d).version.nextFileNumber ∧
    ∀ n ∈ (DBImpl.recover options d).disk.wals.names,
      n<(DBImpl.recover options d).version.nextFileNumber := by
  have hlist := listWalFiles_eq hasc
  have hwals := wals_recoverOps options d
  have hnames : ∀ n ∈ d.wals.names, n<(recoverVersion d).nextFileNumber := by
    rw [← hlist]
    exact fun n hn => lt_nextFileNumber_recoverVersion hn
  simp only [DBImpl.recover,hlist]
  rcases eq_nil_or_concat d.wals with hnil | ⟨older,newest,hconcat⟩
  · rw [hwals,hnil]
    refine ⟨[],[],rfl,rfl,Nat.le_succ _,?_⟩
    intro n hn
    rw [mem_singleton.mp hn]
    exact Nat.lt_succ_self _
  · have hne : d.wals.isEmpty = false := by simp [hconcat]
    have hlast : d.wals.getLast? = some newest := by simp [hconcat]
    rw [hwals,hne,hlast]
    refine ⟨older,newest.2,?_,?_,le_rfl,hnames⟩
    · simpa using hconcat
    · simp [hconcat,Directory.names]

end Replay

lemma walOps_recover (d : Disk) : walOps (DBImpl.recover options d).disk.wals = walOps d.wals := by
  rcases (keeps_recoverOps options d).1.2.wals with hw | ⟨hw,n,hn⟩
  · exact congrArg walOps hw
  · rw [hw]
    change walOps (d.exec (recoverOps options d)).wals = _
    rw [hn]
    rfl

namespace DBImpl
variable (d : Disk)

lemma seq_recover : (recover options d).seq = (walOps d.wals).length := by
  change ((listWalFiles d).foldl (fun s w => replayWalFile s w.2) (MemTable.empty,0)).2 = _
  rw [foldl_replayWalFile_eq,Nat.zero_add]
  exact ((perm_insertionSort _ d.wals).flatMap_right _).length_eq

lemma liveEntry_recover_iff {e : Entry} :
    (recover options d).LiveEntry e ↔ ∃ i, ∃ m ∈ filesAt d.listed i, e ∈ d.entriesOf m.path := by
  have htables := (keeps_recoverOps options d).1.2.tables
  simp only [LiveEntry,filesAt_recover]
  refine exists_congr fun i => exists_congr fun m => and_congr_right fun hm => ?_
  rw [← htables i m hm]
  rfl

/-- After a reopen new operations are numbered above everything stored exactly when no table that the
MANIFEST lists holds a number above the count of operations in the WAL files. -/
theorem numbersFresh_after_reopen_iff (options : Options) (before : List Event) :
    let d := ((fresh options).run before).close.disk
    ((fresh options).run (before++[.reopen])).NumbersFresh ↔
      ∀ i, ∀ m ∈ filesAt d.listed i, ∀ e ∈ d.entriesOf m.path, e.key.seq≤(walOps d.wals).length := by
  intro d
  rw [run_append]
  change (recover _ d).NumbersFresh ↔ _
  rw [numbersFresh_recover_iff,seq_recover]
  simp only [liveEntry_recover_iff]
  exact ⟨fun h i m hm e he => h e ⟨i,m,hm,he⟩,fun h e ⟨i,m,hm,he⟩ => h i m hm e he⟩

/-- One flushed put: after the reopen the counter is back at zero and the next operation gets
the number of the stored entry again. -/
theorem not_numbersFresh_after_flush :
    ¬ ((fresh ⟨100,6⟩).run [.write [[⟨.put,[1],[2]⟩]],.freeze,.flush,.reopen]).NumbersFresh := by
  intro h
  have hlive : ((fresh ⟨100,6⟩).run [.write [[⟨.put,[1],[2]⟩]],.freeze,.flush,.reopen]).LiveEntry
      ⟨⟨[1],1,.value⟩,[2]⟩ := ⟨0,⟨⟨0,3⟩,3⟩,by decide +kernel,by decide +kernel⟩
  have hnext : 1 ∈ opSeqs
      (((fresh ⟨100,6⟩).run [.write [[⟨.put,[1],[2]⟩]],.freeze,.flush,.reopen]).run []).seq
      [[⟨.put,[1],[3]⟩]] := by decide +kernel
  exact lt_irrefl _ ((h [] (by simp) _ _ hnext).1 _ hlive)

end DBImpl

namespace Durable
variable {ops : List BatchOp} {d : Disk} (options : Options)

theorem recoveredView_recover (h : Durable ops d) (k : Bytes) :
    (DBImpl.recover options d).recoveredView k = lastOp ops k := by
  have halike := (keeps_recoverOps options d).1.2
  have hlevels := DBImpl.filesAt_recover options d 0
  obtain ⟨a,b,c,rfl,hwal,hview⟩ := h.covered
  rw [DBImpl.recoveredView,holds_recover options h.ascending k,hlevels,hwal]
  change (lastOp (b++c) k).or (tableView (d.exec (recoverOps options d)) _ k) = _
  rw [tableView_congr (halike.tables 0),hview k]
  exact lastOp_overlap a b c k

/-- The session that `recover` starts has one generation, made of all WAL files. -/
theorem live_recover (h : Durable ops d) : ∃ g, Live ops (DBImpl.recover options d) .idle .idle g := by
  obtain ⟨hkeeps,hmanifest⟩ := keeps_recoverOps options d
  obtain ⟨hasc,hflat,hnamed,a,b,c,hops,hwal,hview⟩ := hkeeps.2.durable h
  obtain ⟨older,bytes,hwals,hobsolete,hnext,hbelow⟩ := wals_recover options h.ascending
  have hactive : walOps (older++[((DBImpl.recover options d).currentWal,bytes)]) = walOps d.wals := by
    rw [← hwals,walOps_recover]
  refine ⟨⟨[],[],older,bytes,a,b,c,snapshotRecords d.listed,[]⟩,?_⟩
  refine ⟨hwals,hasc,hbelow,.nil,hobsolete.symm,⟨walOps d.wals,?_,holds_recover options h.ascending⟩,
    fun e he => (DBImpl.replayed_seq_lt options d e he).le,trivial,?_,hflat,?_,hops,hwal,hview,?_,rfl,rfl⟩
  · rw [Writer.pending_idle,append_nil]
    exact hactive
  · rw [append_nil]
    exact hmanifest
  · intro m hm
    refine ⟨hnamed m hm,Nat.lt_of_lt_of_le ?_ hnext⟩
    have hm' := hkeeps.2.listed 0 ▸ hm
    exact fileNumber_lt_recoverVersion hm'
  · change b <+: walOps (older++[((DBImpl.recover options d).currentWal,bytes)])
    rw [← hwals]
    exact ⟨c,hwal.symm⟩

end Durable
end TitanKV.Minikv
