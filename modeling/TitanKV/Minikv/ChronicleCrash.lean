import TitanKV.Minikv.ChronicleTables

/-! What a crash leaves of the files, wherever it comes, and that the next session can build on it. -/
namespace TitanKV.Minikv
open CrashPoints List DBImpl Disk FileMeta Option

def Disk.files (d : Disk) (level : ℕ) : List TablePath := (filesAt d.listed level).map path

/-- What holds of the files while no process runs: the WAL files are one generation, to be replayed into
one MemTable. -/
structure Kept (l : Ledger) (d : Disk) : Prop where
  named : d.Named
  distinct : ∀ i, (d.files i).Nodup
  logs : Logs l d [d.wals.names]
  filed : ∀ k, Filed l k d d.files [d.wals.names]

namespace Kept
variable {l : Ledger} {d d' : Disk}

lemma frame (h : Kept l d) (hwals : d'.wals = d.wals) (hlisted : ∀ i, filesAt d'.listed i <:+ filesAt d.listed i)
    (hentries : ∀ i, ∀ path ∈ d.files i, d'.entriesOf path = d.entriesOf path) : Kept l d' := by
  have hfiles : ∀ i, d'.files i <:+ d.files i := fun i => (hlisted i).map _
  refine ⟨fun i m hm => h.named i m ((hlisted i).subset hm),fun i => (h.distinct i).sublist (hfiles i).sublist,?_,?_⟩
  · rw [hwals]
    exact h.logs.congr hwals
  · intro k
    rw [hwals]
    exact (h.filed k).frame hfiles (fun i path hp => hentries i path ((hfiles i).subset hp)) (fun _ _ _ => rfl)
      (fun _ _ _ hp => hp) le_rfl fun _ _ hb => hb

lemma replayed_length (h : Kept l d) {w : ℕ × Bytes} (hw : w ∈ d.wals) :
    (replayedOps w.2).length = (l.logs w.1).length := by
  rw [h.logs.replayed w hw,length_map]

lemma init : Kept .blank ⟨[],[],⟨none,none,none⟩⟩ := by
  have hfiles : ∀ i, files ⟨[],[],⟨none,none,none⟩⟩ i = [] := by
    intro i
    rw [files,show filesAt (listed ⟨[],[],⟨none,none,none⟩⟩) i = [] from filesAt_replicate 8 i]
    rfl
  have hholders : ∀ k i, holders ⟨[],[],⟨none,none,none⟩⟩ k (files ⟨[],[],⟨none,none,none⟩⟩ i) = [] := by
    intro k i
    rw [hfiles]
    rfl
  refine ⟨?_,fun i => by rw [hfiles]; exact nodup_nil,?_,?_⟩
  · intro i m hm
    have hnil : filesAt (listed ⟨[],[],⟨none,none,none⟩⟩) i = [] := filesAt_replicate 8 i
    rw [hnil] at hm
    cases hm
  · exact ⟨rfl,Pairwise.nil,fun w hw => (by cases hw),Pairwise.nil,fun s hs => by cases hs⟩
  · intro k
    refine ⟨Recency.of_empty (hholders k),?_,?_⟩
    · intro i path hp
      rw [hholders] at hp
      cases hp
    · intro i path hp
      rw [hholders] at hp
      cases hp

end Kept

namespace Threads
variable {s : Threads} {l : Ledger} (hl : s.Logged l) (h : ∀ k, s.Recent l k)
include hl

lemma Logged.filesAt_listed (i : ℕ) : filesAt s.db.disk.listed i = filesAt s.db.version.levels i := by
  obtain ⟨records,hactive,hsame⟩ := hl.listed.records
  rw [log_of_active hactive]
  exact hsame i

include h

theorem Recent.kept : Kept l s.db.disk := by
  have hfiles : s.db.disk.files = s.db.version.getLevelFiles := by
    funext i
    rw [files,hl.filesAt_listed]
    rfl
  have hflat : [s.db.disk.wals.names].flatten = s.generations.flatten := by
    rw [flatten_singleton,hl.logs.names]
  refine ⟨?_,?_,hl.logs.regroup hflat,?_⟩
  · intro i m hm
    rw [hl.filesAt_listed] at hm
    rw [← (hl.tidy.db.placed i m hm).1,← hl.numbered i m hm]
  · intro i
    rw [hfiles]
    exact hl.listed.distinct i
  · intro k
    rw [hfiles]
    refine (h k).filed.frame (fun i => suffix_rfl) (fun _ _ _ => rfl) (fun _ _ _ => rfl) (fun _ _ _ hp => hp)
      le_rfl ?_
    intro t _ hb
    have hone := hb.flatten
    rw [Ledger.flatten_times,← hl.logs.names] at hone
    exact hone

lemma Recent.kept_header (r : ManifestRecord) : Kept l (s.db.disk.apply (.manifest (.write (.header r)))) := by
  obtain ⟨records,hactive,-⟩ := hl.listed.records
  have hheader : (s.db.disk.apply (.manifest (.write (.header r)))).manifest.active =
      some (recordChunks records ++ [.header r]) := by
    simp [apply,ManifestOp.apply,hactive]
  refine (Recent.kept hl h).frame rfl ?_ fun _ _ _ => rfl
  intro i
  rw [listed_of_active hheader rfl,log_of_active hactive]

variable {calls : ℕ}

lemma Recent.kept_record {r : ManifestRecord} (hcalls : calls<(recordOps r).length) :
    Kept l (s.db.disk.exec ((recordOps r).take calls)) := by
  match calls,hcalls with
  | 0,_ => exact Recent.kept hl h
  | 1,_ => exact Recent.kept_header hl h r
  | n+2,hn => exact absurd hn (by simp [recordOps])

lemma Recent.kept_single {op : FsOp} (hcalls : calls<[op].length) :
    Kept l (s.db.disk.exec ([op].take calls)) := by
  obtain rfl : calls = 0 := by simpa using hcalls
  exact Recent.kept hl h

lemma Recent.kept_flush (hcalls : calls<s.flusher.calls.length) :
    Kept l (s.db.disk.exec (s.flusher.calls.take calls)) := by
  cases hf : s.flusher with
  | creating entry path | building entry path =>
    rw [hf] at hcalls
    exact Recent.kept_single hl h hcalls
  | listing entry path =>
    rw [hf] at hcalls
    exact Recent.kept_record hl h hcalls
  | unlinking wals | dropping entry wals =>
    rw [hf] at hcalls
    cases wals with
    | nil => exact absurd hcalls (Nat.not_lt_zero _)
    | cons n wals => exact Recent.kept_single hl h hcalls
  | waiting | erasing entry =>
    rw [hf] at hcalls
    exact absurd hcalls (Nat.not_lt_zero _)

end Threads

lemma filter_take_suffix {files : List SSTableMeta} {sources : List TablePath} (hnodup : (files.map path).Nodup)
    (hsources : sources <+: files.map path) (j : ℕ) :
    files.filter (fun m => !((files.filter fun m => m.path ∈ sources).take j).any fun x => m.path = x.path) <:+
      files := by
  obtain ⟨newer,hnewer⟩ := hsources
  have hgone : files.filter (fun m => m.path ∈ sources) = files.take sources.length := by
    have hsplit := take_append_drop sources.length files
    have hfront : (files.take sources.length).map path = sources := by
      rw [map_take,← hnewer,take_left]
    have hback : (files.drop sources.length).map path = newer := by
      rw [map_drop,← hnewer,drop_left]
    have hdisjoint := hnodup
    rw [← hnewer,nodup_append] at hdisjoint
    calc files.filter (fun m => m.path ∈ sources)
        = (files.take sources.length ++ files.drop sources.length).filter
          (fun m => m.path ∈ sources) := by rw [hsplit]
      _ = files.take sources.length := by
        rw [filter_append,filter_eq_self.mpr,filter_eq_nil_iff.mpr,append_nil]
        · intro m hm
          have hmem : m.path ∈ newer := hback ▸ mem_map_of_mem hm
          simpa using fun hsource => hdisjoint.2.2 m.path hsource m.path hmem rfl
        · intro m hm
          have hmem : m.path ∈ sources := hfront ▸ mem_map_of_mem hm
          simpa using hmem
  rw [hgone,take_take,filter_not_any_take hnodup]
  exact drop_suffix _ _

namespace Threads
variable {s : Threads} {l : Ledger} (hl : s.Logged l) (h : ∀ k, s.Recent l k)
include hl h

lemma Recent.kept_retracting {level : ℕ} {sources : List TablePath}
    (hsources : sources <+: s.db.version.getLevelFiles level) (calls : ℕ) :
    Kept l (s.db.disk.exec (((removeRecords s.db.version.levels level sources).flatMap recordOps).take calls)) := by
  obtain ⟨records,hactive,hsame⟩ := hl.listed.records
  refine Along.take (P := Kept l) (along_records hactive ?_) calls
  intro p q hpq d' htables hwals hlisted
  refine (Recent.kept hl h).frame hwals ?_ ?_
  · intro i
    obtain ⟨j,rfl⟩ : ∃ j, p = (((filesAt s.db.version.levels level).filter fun m => m.path ∈ sources).take j).map
        fun m => .del level m.path m.fileNumber := by
      refine ⟨p.length,?_⟩
      rw [map_take,← removeRecords,hpq,take_left]
    rw [hlisted,replayRecords_append,filesAt_foldl_del,hsame i,hl.filesAt_listed]
    split
    · rename_i hi
      subst hi
      exact filter_take_suffix (hl.listed.distinct level) hsources j
    · exact suffix_rfl
  · intro i path _
    rw [entriesOf,reader,htables]
    rfl

lemma Recent.kept_compact {calls : ℕ} (hcalls : calls<(s.compactor.calls s.db.version.levels).length) :
    Kept l (s.db.disk.exec ((s.compactor.calls s.db.version.levels).take calls)) := by
  have hc := hl.tidy.compactor
  cases hs : s.compactor with
  | waiting | reading level sources rest all =>
    rw [hs] at hcalls
    exact absurd hcalls (Nat.not_lt_zero _)
  | creating level sources newFile merged | building level sources newFile merged =>
    rw [hs] at hcalls
    exact Recent.kept_single hl h hcalls
  | listing level sources newFile merged =>
    rw [hs,CompactionThread.calls] at hcalls
    rw [CompactionThread.calls]
    split at hcalls
    · rw [if_pos ‹_›]
      exact Recent.kept_single hl h hcalls
    · rw [if_neg ‹_›]
      exact Recent.kept_record hl h hcalls
  | retracting level sources =>
    rw [hs] at hc
    exact Recent.kept_retracting hl h hc.1.listed calls
  | unlinking paths =>
    rw [hs] at hcalls
    cases paths with
    | nil => exact absurd hcalls (Nat.not_lt_zero _)
    | cons path paths => exact Recent.kept_single hl h hcalls

lemma Recent.kept_torn {group : WriteGroup}
    (hwhole : WholeRecords ((s.db.disk.wals.get s.db.currentWal).getD [])) {bytes : ℕ}
    (hbytes : bytes<(walRecord (encodeGroup group)).length) :
    Kept l (s.db.disk.apply (.wal (.append s.db.currentWal ((walRecord (encodeGroup group)).take bytes)))) := by
  have hkept := Recent.kept hl h
  have hnodup : s.db.disk.wals.names.Nodup := hl.logs.ascending.imp fun hlt => hlt.ne
  have hnames := s.db.disk.wals.names_update s.db.currentWal (· ++ (walRecord (encodeGroup group)).take bytes)
  have hnothing : ∀ file, (s.db.currentWal,file) ∈ s.db.disk.wals →
      replayedOps (file ++ (walRecord (encodeGroup group)).take bytes) = replayedOps file ++ [] := by
    intro file hmem
    rw [Directory.get_of_mem hnodup hmem,getD_some] at hwhole
    rw [replayedOps,hwhole.walReplay_cut hbytes,append_nil]
    rfl
  have hlogs := hl.logs.append s.flatten_generations hnothing
  rw [Ledger.append_nil] at hlogs
  refine ⟨hkept.named,hkept.distinct,?_,?_⟩
  · refine hlogs.regroup ?_
    rw [flatten_singleton,hlogs.names]
  · intro k
    have hfiled := hkept.filed k
    rw [← hnames] at hfiled
    exact { hfiled with }

/-- Wherever the crash comes, the files are kept. -/
theorem Recent.crash {point : CrashPoint} {d : Disk} (hcrash : s.crash point = some d)
    (hclean : ∀ group bytes, point = .append group bytes → (encodeGroup group).length<2^32 ∧
      WholeRecords ((s.db.disk.wals.get s.db.currentWal).getD [])) : Kept (l.crash s point) d := by
  cases point with
  | between =>
    obtain rfl := some.inj hcrash
    exact Recent.kept hl h
  | append group bytes =>
    obtain ⟨hsize,hwhole⟩ := hclean group bytes rfl
    rw [Threads.crash] at hcrash
    split at hcrash
    · cases hcrash
    · rename_i hgroup
      obtain rfl := some.inj hcrash
      rw [Ledger.crash]
      split
      · -- the record is complete, as after a write that has not reached the MemTable
        rename_i hbytes
        have hgroup' : group.isEmpty = false := by simpa using hgroup
        have hlogged := hl.writeGroup hgroup' hsize hwhole
        have hkept := Recent.kept hlogged fun k => Recent.writeGroup hl (h k) hgroup'
        rw [s.db.writeGroup_eq hgroup'] at hkept
        rw [take_of_length_le hbytes]
        exact hkept
      · exact Recent.kept_torn hl h hwhole (by omega)
  | flush calls =>
    rw [Threads.crash] at hcrash
    split at hcrash
    · obtain rfl := some.inj hcrash
      exact Recent.kept_flush hl h ‹_›
    · cases hcrash
  | compact calls =>
    rw [Threads.crash] at hcrash
    split at hcrash
    · obtain rfl := some.inj hcrash
      exact Recent.kept_compact hl h ‹_›
    · cases hcrash

end Threads

section Start
variable {l : Ledger} {d : Disk} (options : Options)

lemma wals_exec_of {ops : List FsOp} (h : ∀ op ∈ ops, ∀ w, op ≠ .wal w) : (d.exec ops).wals = d.wals := by
  induction ops generalizing d with
  | nil => rfl
  | cons op ops ih =>
    refine (ih fun x hx => h x (mem_cons_of_mem op hx)).trans ?_
    cases op with
    | wal w => exact (h (.wal w) (by simp) w rfl).elim
    | table op | manifest op => rfl

lemma wals_take_recoverOps {calls : ℕ} (hcalls : calls<(recoverOps options d).length) :
    (d.exec ((recoverOps options d).take calls)).wals = d.wals := by
  obtain ⟨before,hbefore⟩ : ∃ before, before = (openManifestOps d.manifest).map FsOp.manifest ++
      (purgeOps options d.tables d.listed).map .table ++ (snapshotOps d.listed).map .manifest := ⟨_,rfl⟩
  have hno : ∀ op ∈ before, ∀ w, op ≠ .wal w := by
    rintro op hop w rfl
    simp [hbefore] at hop
  have htake : (recoverOps options d).take calls = before.take calls := by
    rw [recoverOps,← hbefore] at hcalls ⊢
    rw [length_append] at hcalls
    apply take_append_of_le_length
    split at hcalls
    · exact Nat.lt_succ_iff.mp hcalls
    · exact hcalls.le
  rw [htake]
  exact wals_exec_of fun op hop => hno op (mem_of_mem_take hop)

/-- A start that is cut short changes nothing that the next one sees. -/
lemma Kept.cutStart (h : Kept l d) {calls : ℕ} (hcalls : calls<(recoverOps options d).length) :
    Kept l (d.exec ((recoverOps options d).take calls)) := by
  have halike : Alike d (d.exec ((recoverOps options d).take calls)) := (keeps_recoverOps options d).1.1.take calls
  refine h.frame (wals_take_recoverOps options hcalls) ?_ ?_
  · intro i
    rw [halike.listed i]
  · intro i path hp
    obtain ⟨m,hm,rfl⟩ := mem_map.mp hp
    exact halike.tables i m hm

lemma Kept.logs_reopen (h : Kept l d) {n : ℕ} (hn : n ∈ d.wals.names) : (l.reopen d).logs n = l.logs n := by
  obtain ⟨w,hw,rfl⟩ := mem_map.mp hn
  have hget : d.wals.get w.1 = some w.2 := Directory.get_of_mem (h.logs.ascending.imp fun hlt => hlt.ne) hw
  have hne : d.wals.isEmpty = false := by
    cases hd : d.wals with
    | nil =>
      rw [hd] at hw
      cases hw
    | cons _ _ => rfl
  rw [Ledger.reopen,hne,if_neg (by simp)]
  dsimp only
  rw [hget,getD_some,h.replayed_length hw,take_length]

lemma ages_reopen (l : Ledger) (d : Disk) :
    (l.reopen d).ages = l.ages ∧ (l.reopen d).outdated = l.outdated ∧ (l.reopen d).clock = l.clock := by
  rw [Ledger.reopen]
  split <;> exact ⟨rfl,rfl,rfl⟩

lemma Kept.logs_start (h : Kept l d) : Logs (l.reopen d) (recover options d).disk
    [(recover options d).disk.wals.names] ∧
    ∀ k, (l.reopen d).times k (recover options d).disk.wals.names = l.times k d.wals.names := by
  have hwals : (recover options d).disk.wals = _ := wals_recoverOps options d
  cases hempty : d.wals.isEmpty with
  | true =>
    have hnil := isEmpty_iff.mp hempty
    have hlog : (l.reopen d).logs (recoverVersion d).nextFileNumber = [] := by
      rw [Ledger.reopen,hempty,if_pos rfl]
      exact Function.update_self _ _ _
    rw [hempty,if_pos rfl] at hwals
    have hnames : (recover options d).disk.wals.names = [(recoverVersion d).nextFileNumber] := by
      rw [hwals]
      rfl
    refine ⟨⟨by rw [flatten_singleton],by rw [hnames]; exact pairwise_singleton _ _,?_,?_,?_⟩,?_⟩
    · intro w hw
      rw [hwals,mem_singleton] at hw
      rw [hw,hlog]
      rfl
    · rw [hnames,flatten_singleton,flatMap_singleton,hlog]
      exact Pairwise.nil
    · rw [hnames,flatten_singleton,flatMap_singleton,hlog]
      intro s hs
      cases hs
    · intro k
      rw [hnames,hnil,Ledger.times,flatMap_singleton,hlog]
      rfl
  | false =>
    rw [hempty,if_neg (by simp)] at hwals
    refine ⟨?_,?_⟩
    · rw [hwals]
      refine (h.logs.congr hwals).ledger_congr ?_ (ages_reopen l d).2.2
      intro n hn
      rw [flatten_singleton] at hn
      exact h.logs_reopen hn
    · intro k
      rw [hwals]
      exact Ledger.times_congr (flatMap_congr fun n hn => h.logs_reopen hn)

theorem Kept.start (h : Kept l d) : (Threads.opened options d).Logged (l.reopen d) ∧
    ∀ k, (Threads.opened options d).Recent (l.reopen d) k := by
  obtain ⟨hkeeps,hmanifest⟩ := keeps_recoverOps options d
  obtain ⟨hlogs,htimes⟩ := h.logs_start options
  obtain ⟨hages,hout,hclock⟩ := ages_reopen l d
  obtain ⟨older,bytes,hwals,hobsolete,-,hbelow⟩ := wals_recover options h.logs.ascending
  have hfiles : ∀ i, (recover options d).version.getLevelFiles i = d.files i := by
    intro i
    rw [Version.getLevelFiles,filesAt_recover]
    rfl
  have hactive : (recover options d).activeWals = (recover options d).disk.wals.names := by
    rw [activeWals,hobsolete,hwals]
    simp [Directory.names]
  have hgens : (Threads.opened options d).generations = [(recover options d).disk.wals.names] := by
    rw [← hactive]
    rfl
  refine ⟨⟨Threads.Tidy.opened h.named options,⟨(Threads.Tidy.opened h.named options).db.placed,?_,
    _,hmanifest,?_⟩,?_,hgens ▸ hlogs,hbelow,?_,?_,fun entry he => (by cases he),trivial⟩,?_⟩
  · intro i
    rw [show filesAt (Threads.opened options d).db.version.levels i = filesAt d.listed i from
      filesAt_recover options d i]
    exact h.distinct i
  · intro i
    rw [replayRecords_snapshotRecords d.listed i]
    exact (filesAt_recover options d i).symm
  · intro i m hm
    have hm' : m ∈ filesAt d.listed i := filesAt_recover options d i ▸ hm
    rw [h.named i m hm']
  · change Holds (recover options d).memtable.table.chain ((l.reopen d).ops (recover options d).activeWals)
    have hall := hlogs.walOps_eq
    rw [flatten_singleton,walOps_recover] at hall
    rw [hactive,← hall]
    exact holds_recover options h.logs.ascending
  · exact fun e he => (replayed_seq_lt options d e he).le
  · intro k
    refine ⟨?_,trivial,trivial⟩
    rw [hgens]
    refine (h.filed k).frame (fun i => ?_) ?_ (fun _ _ _ => by rw [hages]) (fun _ _ _ hp => by rw [hout]; exact hp)
      hclock.ge ?_
    · change (recover options d).version.getLevelFiles i <:+ d.files i
      rw [hfiles]
    · intro i path hp
      have hp' : path ∈ d.files i := hfiles i ▸ hp
      obtain ⟨m,hm,rfl⟩ := mem_map.mp hp'
      exact hkeeps.2.tables i m hm
    · intro t _ hb
      rw [map_singleton,htimes k]
      exact hb

end Start
end TitanKV.Minikv
