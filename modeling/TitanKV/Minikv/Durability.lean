import TitanKV.Minikv.CrashMachine

/-! What the files say about the operations they hold, and that `recover` keeps it at every
point where a crash may cut it short. -/
namespace TitanKV.Minikv
open Layers CrashPoints List ManifestOp ManifestFiles

def walOps (wals : Directory ℕ Bytes) : List BatchOp := wals.flatMap fun w => replayedOps w.2

def tableLayer (d : Disk) (m : SSTableMeta) (k : Bytes) : Option (Option Bytes) :=
  (newest (d.entriesOf m.path) k).map Entry.live

def tableView (d : Disk) (files : List SSTableMeta) (k : Bytes) : Option (Option Bytes) :=
  overlay (files.map (tableLayer d)) k

/-- The files hold these operations. The SSTables hold a beginning of them and the WAL files
an end; what lies in between is held twice. -/
structure Durable (ops : List BatchOp) (d : Disk) : Prop where
  ascending : d.wals.names.Pairwise (· < ·)
  flat : ∀ i, 0 < i → filesAt d.listed i = []
  named : ∀ m ∈ filesAt d.listed 0, m.path = ⟨0,m.fileNumber⟩
  covered : ∃ a b c, ops = a++b++c ∧ walOps d.wals = b++c ∧
    ∀ k, tableView d (filesAt d.listed 0) k = lastOp (a++b) k

lemma lastOp_overlap (a b c : List BatchOp) (k : Bytes) :
    (lastOp (b++c) k).or (lastOp (a++b) k) = lastOp (a++b++c) k := by
  rw [lastOp_append,lastOp_append,lastOp_append,lastOp_append]
  cases lastOp c k <;> cases lastOp b k <;> rfl

lemma tableView_congr {d d' : Disk} {files : List SSTableMeta}
    (h : ∀ m ∈ files, d'.entriesOf m.path = d.entriesOf m.path) (k : Bytes) :
    tableView d' files k = tableView d files k := by
  have hmap : files.map (tableLayer d') = files.map (tableLayer d) := by
    apply map_congr_left
    intro m hm
    funext k
    rw [tableLayer,tableLayer,h m hm]
  rw [tableView,tableView,hmap]

/-- The same files as far as a recovery can tell. -/
structure Alike (d d' : Disk) : Prop where
  wals : d'.wals = d.wals ∨ d.wals = [] ∧ ∃ n, d'.wals = [(n,[])]
  listed : SameFiles d'.listed d.listed
  tables : ∀ i, ∀ m ∈ filesAt d.listed i, d'.entriesOf m.path = d.entriesOf m.path

namespace Alike
variable {d d' d'' : Disk}

lemma refl (d : Disk) : Alike d d := ⟨.inl rfl,fun _ => rfl,fun _ _ _ => rfl⟩

lemma trans (h : Alike d d') (h' : Alike d' d'') : Alike d d'' := by
  refine ⟨?_,fun i => (h'.listed i).trans (h.listed i),?_⟩
  · rcases h.wals with hw | ⟨hw,n,hn⟩
    · rw [← hw]
      exact h'.wals
    · rcases h'.wals with hw' | ⟨hw',-⟩
      · exact .inr ⟨hw,n,hw'.trans hn⟩
      · rw [hn] at hw'
        cases hw'
  · intro i m hm
    rw [← h.tables i m hm]
    exact h'.tables i m (h.listed i ▸ hm)

lemma of_manifest (m : ManifestFiles) (h : SameFiles (replayRecords (replayLog m.log)) d.listed) :
    Alike d { d with manifest := m } := ⟨.inl rfl,h,fun _ _ _ => rfl⟩

theorem durable {ops : List BatchOp} (h : Alike d d') (hd : Durable ops d) : Durable ops d' := by
  obtain ⟨a,b,c,hops,hwal,hview⟩ := hd.covered
  refine ⟨?_,?_,?_,a,b,c,hops,?_,?_⟩
  · rcases h.wals with hw | ⟨-,n,hn⟩
    · rw [hw]
      exact hd.ascending
    · rw [hn]
      exact pairwise_singleton _ _
  · intro i hi
    rw [h.listed]
    exact hd.flat i hi
  · rw [h.listed]
    exact hd.named
  · rcases h.wals with hw | ⟨hw,n,hn⟩
    · rwa [hw]
    · rw [hw] at hwal
      rw [hn,← hwal]
      rfl
  · intro k
    rw [h.listed,tableView_congr (h.tables 0)]
    exact hview k

end Alike

lemma log_openManifestOps (m : ManifestFiles) :
    Along apply (fun m' => m'.log = m.log) m (openManifestOps m) ∧
      (exec apply m (openManifestOps m)).active = some m.log := by
  obtain ⟨active,new,bak⟩ := m
  cases active with
  | some log => exact ⟨⟨rfl,rfl,rfl⟩,rfl⟩
  | none =>
    cases new with
    | some log => exact ⟨⟨rfl,rfl,rfl⟩,rfl⟩
    | none =>
      cases bak with
      | some log => exact ⟨⟨rfl,rfl,rfl⟩,rfl⟩
      | none => exact ⟨⟨rfl,rfl⟩,rfl⟩

lemma exec_writeNew (m : ManifestFiles) {written : List Chunk} (h : m.new = some written)
    (chunks : List Chunk) :
    exec apply m (chunks.map .writeNew) = { m with new := some (written++chunks) } := by
  induction chunks generalizing m written with
  | nil =>
    rw [append_nil,← h]
    rfl
  | cons c chunks ih =>
    have hnew : (apply m (.writeNew c)).new = some (written++[c]) := by
      simp [apply,h]
    rw [map_cons,exec_cons,ih _ hnew,append_assoc]
    rfl

/-- Until the old MANIFEST is renamed away it is the one that is read, and from then on the
complete snapshot is. -/
lemma log_snapshotOps {m : ManifestFiles} {log : List Chunk} (h : m.active = some log) (ls : Levels) :
    Along apply (fun m' => m'.log = log ∨ m'.log = recordChunks (snapshotRecords ls))
        m (snapshotOps ls) ∧
      (exec apply m (snapshotOps ls)).active = some (recordChunks (snapshotRecords ls)) := by
  obtain ⟨before,hbefore⟩ : ∃ before, before =
      .createNew::(recordChunks (snapshotRecords ls)).map .writeNew ++ [unlinkBak] := ⟨_,rfl⟩
  have hsplit : snapshotOps ls = before++[.archive,.promote] := by
    rw [snapshotOps,hbefore,append_assoc]
    rfl
  have hkept : Along apply (fun m' => m'.active = some log) m before := by
    refine (along_of_kept (fun m' : ManifestFiles => m'.active = some log) before ?_ h).1
    intro s op hop hs
    simp only [hbefore,cons_append,mem_cons,mem_append,mem_map,
      not_mem_nil,or_false] at hop
    rcases hop with rfl | ⟨c,-,rfl⟩ | rfl <;> exact hs
  have hend : exec apply m before =
      ⟨some log,some (recordChunks (snapshotRecords ls)),none⟩ := by
    have hnew := exec_writeNew (apply m .createNew) rfl (recordChunks (snapshotRecords ls))
    rw [hbefore,cons_append,exec_cons,exec_append,hnew,nil_append]
    simp [apply,h]
  rw [hsplit]
  refine ⟨(hkept.imp ?_).append ?_,by rw [exec_append,hend]; rfl⟩
  · intro m' hm'
    exact .inl (log_of_active hm')
  · rw [hend]
    exact ⟨.inl rfl,.inr rfl,.inr rfl⟩

lemma path_mem_livePaths {ls : Levels} {i : ℕ} {m : SSTableMeta} (h : m ∈ filesAt ls i) :
    m.path ∈ livePaths ls := mem_map_of_mem (mem_flatten_of_mem_filesAt h)

def Keeps (d : Disk) (ops : List FsOp) : Prop :=
  Along Disk.apply (Alike d) d ops ∧ Alike d (d.exec ops)

lemma Keeps.append {d : Disk} {ops more : List FsOp} (h : Keeps d ops) (hmore : Keeps (d.exec ops) more) :
    Keeps d (ops++more) := by
  refine ⟨h.1.append (hmore.1.imp fun _ hx => h.2.trans hx),?_⟩
  rw [Disk.exec_append]
  exact h.2.trans hmore.2

lemma keeps_openManifestOps (d : Disk) :
    Keeps d ((openManifestOps d.manifest).map .manifest) := by
  have hlog : ∀ m : ManifestFiles, m.log = d.manifest.log → Alike d { d with manifest := m } := by
    intro m hm
    apply Alike.of_manifest
    rw [hm]
    exact fun _ => rfl
  obtain ⟨halong,hend⟩ := log_openManifestOps d.manifest
  refine ⟨d.along_map_manifest (halong.imp hlog),?_⟩
  rw [d.exec_map_manifest]
  exact hlog _ (log_of_active hend)

/-- Only files that the MANIFEST does not list are unlinked. -/
lemma keeps_purgeOps (options : Options) (d : Disk) (tables : Directory TablePath (Option SSTable)) :
    Keeps d ((purgeOps options tables d.listed).map .table) := by
  have hkept : Along TableOp.apply (fun t => Alike d { d with tables := t }) d.tables
        (purgeOps options tables d.listed) ∧
      Alike d { d with tables := exec TableOp.apply d.tables (purgeOps options tables d.listed) } := by
    apply along_of_kept (fun t => Alike d { d with tables := t }) _ _ (Alike.refl d)
    intro t op hop ht
    obtain ⟨path,hpath,rfl⟩ := mem_map.mp hop
    have hdead : path ∉ livePaths d.listed := by
      have hp := (mem_filter.mp hpath).2
      simp only [decide_eq_true_eq] at hp
      exact hp.2
    refine ⟨.inl rfl,fun _ => rfl,?_⟩
    intro i m hm
    rw [← ht.tables i m hm]
    have hne : m.path ≠ path := by
      rintro rfl
      exact hdead (path_mem_livePaths hm)
    simp only [Disk.entriesOf,Disk.reader,TableOp.apply,Directory.get_unlink,if_neg hne]
  exact ⟨d.along_map_table hkept.1,by rw [d.exec_map_table]; exact hkept.2⟩

lemma keeps_snapshotOps {d : Disk} {log : List Chunk} (h : d.manifest.active = some log) :
    Keeps d ((snapshotOps d.listed).map .manifest) := by
  have hold : d.manifest.log = log := log_of_active h
  have hlog : ∀ m : ManifestFiles, m.log = log ∨ m.log = recordChunks (snapshotRecords d.listed) →
      Alike d { d with manifest := m } := by
    rintro m (hm | hm)
    · apply Alike.of_manifest
      rw [hm,← hold]
      exact fun _ => rfl
    · apply Alike.of_manifest
      rw [hm,replayLog_recordChunks]
      exact replayRecords_snapshotRecords d.listed
  obtain ⟨halong,hend⟩ := log_snapshotOps h d.listed
  refine ⟨d.along_map_manifest (halong.imp hlog),?_⟩
  rw [d.exec_map_manifest]
  exact hlog _ (.inr (log_of_active hend))

lemma keeps_createWal (d : Disk) (n : ℕ) :
    Keeps d (if d.wals.isEmpty then [.wal (.create n)] else []) := by
  split
  · rename_i hempty
    have hnil := isEmpty_iff.mp hempty
    have halike : Alike d (d.apply (.wal (.create n))) := by
      refine ⟨.inr ⟨hnil,n,?_⟩,fun _ => rfl,fun _ _ _ => rfl⟩
      simp [Disk.apply,WalOp.apply,hnil,Directory.names]
    exact ⟨⟨Alike.refl d,halike⟩,halike⟩
  · exact ⟨Alike.refl d,Alike.refl d⟩

/-- Wherever a crash cuts `recover` short, the next one finds the same files; at its end the
MANIFEST is the snapshot. -/
theorem keeps_recoverOps (options : Options) (d : Disk) :
    Keeps d (recoverOps options d) ∧ (d.exec (recoverOps options d)).manifest.active =
      some (recordChunks (snapshotRecords d.listed)) := by
  obtain ⟨d₁,hd₁⟩ : ∃ d₁, d₁ = d.exec ((openManifestOps d.manifest).map .manifest) := ⟨_,rfl⟩
  have hactive : d₁.manifest.active = some d.manifest.log := by
    rw [hd₁,d.exec_map_manifest]
    exact (log_openManifestOps d.manifest).2
  have hlisted : d₁.listed = d.listed := by
    rw [Disk.listed,log_of_active hactive,Disk.listed]
  obtain ⟨d₂,hd₂⟩ : ∃ d₂, d₂ = d₁.exec ((purgeOps options d.tables d.listed).map .table) := ⟨_,rfl⟩
  have hmanifest : d₂.manifest = d₁.manifest := by rw [hd₂,d₁.exec_map_table]
  have hlisted₂ : d₂.listed = d.listed := by rw [Disk.listed,hmanifest,← Disk.listed,hlisted]
  obtain ⟨d₃,hd₃⟩ : ∃ d₃, d₃ = d₂.exec ((snapshotOps d.listed).map .manifest) := ⟨_,rfl⟩
  have hactive₃ : d₃.manifest.active = some (recordChunks (snapshotRecords d.listed)) := by
    rw [hd₃,d₂.exec_map_manifest]
    exact (log_snapshotOps (hmanifest ▸ hactive) d.listed).2
  have hwals : d₃.wals = d.wals := by
    rw [hd₃,d₂.exec_map_manifest,hd₂,d₁.exec_map_table,hd₁,d.exec_map_manifest]
  have hpurge : Keeps d₁ ((purgeOps options d.tables d.listed).map .table) := by
    rw [← hlisted]
    exact keeps_purgeOps options d₁ d.tables
  have hsnapshot : Keeps d₂ ((snapshotOps d.listed).map .manifest) := by
    rw [← hlisted₂]
    exact keeps_snapshotOps (hmanifest ▸ hactive)
  have hcreate : Keeps d₃
      (if d.wals.isEmpty then [.wal (.create (recoverVersion d).nextFileNumber)] else []) := by
    rw [← hwals]
    exact keeps_createWal d₃ _
  rw [recoverOps]
  refine ⟨?_,?_⟩
  · refine ((Keeps.append (keeps_openManifestOps d) ?_).append ?_).append ?_
    · rwa [← hd₁]
    · rwa [Disk.exec_append,← hd₁,← hd₂]
    · rwa [Disk.exec_append,Disk.exec_append,← hd₁,← hd₂,← hd₃]
  · rw [Disk.exec_append,Disk.exec_append,Disk.exec_append,← hd₁,← hd₂,← hd₃]
    split
    · exact hactive₃
    · exact hactive₃

end TitanKV.Minikv
