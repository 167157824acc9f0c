import TitanKV.Minikv.CrashInvariant

/-! Every step of the writer and of the flush thread keeps the invariant of the session. -/
namespace TitanKV.Minikv
open Layers CrashPoints List Directory Disk

lemma walOps_singleton (n : ℕ) (bytes : Bytes) : walOps [(n,bytes)] = replayedOps bytes := by
  simp [walOps]

@[simp] theorem replayedOps_nil : replayedOps [] = [] := rfl

lemma replayedOps_record {bytes : Bytes} (hwhole : WholeRecords bytes) {group : WriteGroup}
    (hsize : (encodeGroup group).length<2^32) :
    replayedOps (bytes ++ walRecord (encodeGroup group)) = replayedOps bytes ++ group.flatten := by
  rw [replayedOps,hwhole.walReplay_record hsize,flatMap_append,flatMap_singleton,
    decodeOps_encodeGroup fun op hop => fits_of_length_encodeGroup hsize hop]
  rfl

lemma replayedOps_header {bytes data : Bytes} (hwhole : WholeRecords bytes) (hsize : data.length<2^32)
    (hne : data ≠ []) : replayedOps (bytes ++ walHeader data) = replayedOps bytes := by
  have hcut : walHeader data = (walRecord data).take 8 := by
    rw [walRecord,take_left' (length_walHeader data)]
  have hlen : 8<(walRecord data).length := by
    have hpos := length_pos_iff.mpr hne
    rw [walRecord,walPayload_eq hsize,length_append,length_walHeader]
    omega
  rw [replayedOps,hcut,hwhole.walReplay_cut hlen]
  rfl

namespace Live
variable {ops : List BatchOp} {db : DBImpl} {w : Writer} {f : Flusher} {g : Division}

theorem append (h : Live ops db w f g) (hpending : w.pending = []) {data : Bytes}
    {new : List BatchOp} {w' : Writer}
    (hnew : replayedOps (g.bytes++data) = replayedOps g.bytes ++ new)
    (hw : WriteState db.currentWal (g.bytes++data) w') (hw' : w'.pending = new) :
    Live (ops++new) { db with disk := db.disk.apply (.wal (.append db.currentWal data)) } w' f
      { g with bytes := g.bytes++data, logged := g.logged++new } := by
  have hwals : (db.disk.apply (.wal (.append db.currentWal data))).wals =
      (g.front++(g.queued.flatten++g.retired))++[(db.currentWal,g.bytes++data)] := by
    change db.disk.wals.update db.currentWal (· ++ data) = _
    rw [h.wals_split,update_last h.current_not_mem]
  have hnames : (db.disk.apply (.wal (.append db.currentWal data))).wals.names = db.disk.wals.names :=
    names_update db.disk.wals db.currentWal (· ++ data)
  have hactive : walOps (g.retired++[(db.currentWal,g.bytes++data)]) =
      walOps (g.active db.currentWal) ++ new := by
    simp only [Division.active,walOps_append,walOps_singleton,hnew,append_assoc]
  refine ⟨?_,?_,?_,h.queue,h.retired,?_,h.seqs,hw,h.manifest,h.flat,h.named,?_,?_,h.view,?_,h.flusher⟩
  · rw [hwals,Division.active]
    simp only [append_assoc]
  · rw [hnames]
    exact h.ascending
  · rw [hnames]
    exact h.below
  · obtain ⟨applied,happlied,hholds⟩ := h.active
    rw [hpending,append_nil] at happlied
    exact ⟨applied,hactive.trans (by rw [happlied,hw']),hholds⟩
  · rw [h.history,append_assoc]
  · have hlogs := h.logs
    rw [h.wals_split,walOps_append,walOps_singleton] at hlogs
    rw [hwals,walOps_append,walOps_singleton,hnew,← append_assoc,hlogs,append_assoc]
  · refine h.oldest.trans ?_
    cases f with
    | flushing entry path rest => exact prefix_rfl
    | idle =>
      simp only [Division.oldest]
      cases hq : g.queued with
      | nil =>
        change walOps (g.active db.currentWal) <+: walOps (g.retired++[(db.currentWal,g.bytes++data)])
        rw [hactive]
        exact prefix_append _ _
      | cons gen rest => exact prefix_rfl

variable {group : WriteGroup}

theorem beginWrite (h : Live ops db .idle f g)
    (hsize : (encodeGroup group).length<2^32) (hwhole : WholeRecords g.bytes) :
    Live ops db (.writing group (appendOps db.currentWal group)) f g :=
  { h with writer := .inl ⟨rfl,hsize,hwhole⟩ }

/-- The last call of an append completes its record; a call before it changes nothing that
is replayed. -/
theorem writerCall {op : FsOp} {rest : List FsOp}
    (h : Live ops db (.writing group (op::rest)) f g) :
    ∃ g', Live (ops++(Writer.writing group rest).pending) { db with disk := db.disk.apply op }
      (.writing group rest) f g' := by
  have hpending : (Writer.writing group (op::rest)).pending = [] := rfl
  rcases h.writer with ⟨hrest,hsize,hwhole⟩ | ⟨base,hrest,hsize,hwhole,hne,hbytes⟩ | hrest
  · rw [appendOps,walPayload_eq hsize] at hrest
    obtain ⟨rfl,htail⟩ := cons.inj hrest
    cases hempty : (encodeGroup group).isEmpty with
    | true =>
      have hnil := isEmpty_iff.mp hempty
      rw [hempty,if_pos rfl] at htail
      subst htail
      have hrecord : walRecord (encodeGroup group) = walHeader (encodeGroup group) := by
        rw [walRecord,walPayload_eq hsize,hnil,append_nil]
      have hnew := replayedOps_record hwhole hsize
      rw [hrecord] at hnew
      exact ⟨_,h.append hpending hnew (.inr (.inr rfl)) rfl⟩
    | false =>
      have hne : encodeGroup group ≠ [] := fun hnil => by simp [hnil] at hempty
      rw [hempty,if_neg (by simp)] at htail
      subst htail
      have hnew := replayedOps_header hwhole hsize hne
      rw [← append_nil (replayedOps g.bytes)] at hnew
      exact ⟨_,h.append hpending hnew
        (.inr (.inl ⟨g.bytes,by rw [walPayload_eq hsize],hsize,hwhole,hne,rfl⟩)) rfl⟩
  · obtain ⟨rfl,rfl⟩ := cons.inj hrest
    have hnew : replayedOps (g.bytes ++ walPayload (encodeGroup group)) =
        replayedOps g.bytes ++ group.flatten := by
      rw [hbytes,replayedOps_header hwhole hsize hne,append_assoc]
      exact replayedOps_record hwhole hsize
    exact ⟨_,h.append hpending hnew (.inr (.inr rfl)) rfl⟩
  · cases hrest

theorem apply (h : Live ops db (.writing group []) f g) :
    Live ops (db.applyWrite group) (.applied group) f g := by
  refine { h with active := ?_, seqs := ?_, writer := trivial }
  · obtain ⟨applied,happlied,hholds⟩ := h.active
    refine ⟨applied++group.flatten,by rw [Writer.pending_applied,append_nil]; exact happlied,?_⟩
    change Holds (applyGroup db.memtable.table db.seq group).chain _
    rw [applyGroup_eq]
    exact MemTable.holds_putOps group.flatten (fun e he => Nat.lt_succ_of_le (h.seqs e he)) hholds
  · intro e he
    rcases seq_mem_opSeqs he with he | he
    · exact (h.seqs e he).trans (Nat.le_add_right _ _)
    · exact (mem_opSeqs.mp he).2

theorem acknowledge (h : Live ops db (.applied group) f g) :
    Live ops db .idle f g :=
  { h with writer := trivial }

theorem freeze (h : Live ops db (.applied group) f g) :
    Live ops db.freeze (.applied group) f
      { g with queued := g.queued++[g.active db.currentWal], retired := [], bytes := [] } := by
  have hfresh : db.version.nextFileNumber ∉ db.disk.wals.names :=
    fun hmem => lt_irrefl _ (h.below _ hmem)
  have hwals : db.freeze.disk.wals = db.disk.wals++[(db.version.nextFileNumber,[])] := by
    change (if _ then _ else _) = _
    rw [if_neg hfresh]
  have hnames : db.freeze.disk.wals.names = db.disk.wals.names++[db.version.nextFileNumber] := by
    rw [hwals,names,map_append]
    rfl
  refine ⟨?_,?_,?_,?_,rfl,⟨[],rfl,holds_nil⟩,?_,trivial,h.manifest,h.flat,?_,h.history,?_,h.view,?_,
    h.flusher.mono (Nat.le_succ _)⟩
  · rw [hwals,h.wals]
    change _ = g.front++((g.queued++[g.active db.currentWal]).flatten++[(db.version.nextFileNumber,[])])
    simp only [flatten_append,flatten_singleton,append_assoc]
  · rw [hnames]
    refine pairwise_append.mpr ⟨h.ascending,pairwise_singleton _ _,?_⟩
    intro n hn m hm
    rw [mem_singleton.mp hm]
    exact h.below n hn
  · rw [hnames]
    intro n hn
    rcases mem_append.mp hn with hn | hn
    · exact (h.below n hn).trans (Nat.lt_succ_self _)
    · rw [mem_singleton.mp hn]
      exact Nat.lt_succ_self _
  · refine rel_append h.queue (Forall₂.cons ⟨?_,?_⟩ Forall₂.nil)
    · change db.obsoleteWals ++ [db.currentWal] = _
      rw [Division.active,names,map_append,← h.retired]
      rfl
    · obtain ⟨applied,happlied,hholds⟩ := h.active
      rw [happlied]
      change Holds _ (applied++[])
      rwa [append_nil]
  · intro e he
    cases he
  · intro m hm
    exact (h.named m hm).imp_right fun hn => hn.trans (Nat.lt_succ_self _)
  · rw [hwals,walOps_append,walOps_singleton,replayedOps_nil,append_nil]
    exact h.logs
  · refine h.oldest.trans ?_
    cases f with
    | flushing entry path rest => exact prefix_rfl
    | idle =>
      simp only [Division.oldest]
      cases g.queued <;> exact prefix_rfl

theorem takeFlush {entry : FlushEntry} {queue : List FlushEntry} (h : Live ops db w .idle g)
    (hq : db.flushQueue = entry::queue) :
    ∃ g', Live ops (db.takeFlush queue entry).1 w (db.takeFlush queue entry).2 g' := by
  obtain ⟨hfront,htail⟩ := h.flusher
  have hqueue := h.queue
  rw [hq] at hqueue
  obtain ⟨gen,rest,⟨hwals,hholds⟩,hrest,hqueued⟩ : ∃ gen rest, (entry.wals = gen.names ∧
      Holds entry.memtable.table.chain (walOps gen)) ∧ List.Forall₂ (fun entry gen =>
        entry.wals = gen.names ∧ Holds entry.memtable.table.chain (walOps gen)) queue rest ∧
      g.queued = gen::rest := by
    cases hg : g.queued with
    | nil =>
      rw [hg] at hqueue
      cases hqueue
    | cons gen rest =>
      rw [hg] at hqueue
      cases hqueue with
      | cons hentry hrest => exact ⟨gen,rest,hentry,hrest,rfl⟩
  have hdisk : db.disk.wals = gen++(rest.flatten ++ g.active db.currentWal) := by
    rw [h.wals,hfront,hqueued]
    simp only [nil_append,flatten_cons,append_assoc]
  have holdest : g.twice <+: walOps gen := by
    have ho := h.oldest
    rw [Division.oldest,hqueued] at ho
    exact ho
  refine ⟨{ g with front := gen, queued := rest },?_⟩
  rw [DBImpl.takeFlush]
  split
  · rename_i hempty
    have hnil : walOps gen = [] := hholds.eq_nil_iff.mp (isEmpty_iff.mp hempty)
    have htwice : g.twice = walOps gen := by
      rw [hnil] at holdest ⊢
      exact prefix_nil.mp holdest
    exact { h with wals := hdisk, queue := hrest, oldest := holdest, flusher := .inl ⟨by rw [hwals],htwice,htail⟩ }
  · refine { h with
      wals := hdisk, below := ?_, queue := hrest, named := ?_, oldest := holdest
      flusher := .inr ⟨_,rfl,⟨hwals,hholds,rfl,Nat.lt_succ_self _,?_⟩,.inl ⟨rfl,htail⟩⟩ }
    · exact fun n hn => (h.below n hn).trans (Nat.lt_succ_self _)
    · exact fun m hm => (h.named m hm).imp_right fun hn => hn.trans (Nat.lt_succ_self _)
    · intro m hm heq
      obtain ⟨hpath,hn⟩ := h.named m hm
      rw [heq] at hpath
      have hnum : db.version.nextFileNumber = m.fileNumber := congrArg TablePath.number hpath
      omega

lemma setTable (h : Live ops db w f g) {p : TablePath}
    (hp : ∀ m ∈ filesAt db.disk.listed 0, m.path ≠ p) (content : Option SSTable) (k : Bytes) :
    tableView { db.disk with tables := db.disk.tables.set p content } (filesAt db.disk.listed 0) k =
      lastOp (g.tabled++g.twice) k := by
  rw [← h.view k]
  apply tableView_congr
  intro m hm
  simp only [entriesOf,reader,get_set,if_neg (hp m hm)]

section Flushing
variable {entry : FlushEntry} {path : Option TablePath} {p : TablePath} {rest rest' : List FsOp}

/-- A WAL file is unlinked once its operations are in a listed table. -/
theorem unlinkWal {n : ℕ} {v : Bytes} {front : Generation} (hfront : g.front = (n,v)::front)
    (h : Live ops db w (.flushing entry path rest) g) (htwice : g.twice = walOps g.front)
    (htail : g.tail = []) :
    Live ops { db with disk := db.disk.apply (.wal (.unlink n)) } w
      (.flushing entry path (unlinkOps front.names))
      { g with front := front, tabled := g.tabled ++ replayedOps v, twice := walOps front } := by
  have hsplit : db.disk.wals = (n,v)::(front++(g.queued.flatten ++ g.active db.currentWal)) := by
    rw [h.wals,hfront]
    rfl
  have hasc := h.ascending
  rw [hsplit,names,map_cons,pairwise_cons] at hasc
  have hwals : (db.disk.apply (.wal (.unlink n))).wals =
      front++(g.queued.flatten ++ g.active db.currentWal) := by
    change db.disk.wals.unlink n = _
    rw [hsplit]
    exact unlink_head (fun hmem => lt_irrefl _ (hasc.1 n hmem)) v
  have hops : walOps g.front = replayedOps v ++ walOps front := by
    rw [hfront]
    rfl
  refine { h with
    wals := hwals, ascending := ?_, below := ?_, history := ?_, logs := ?_, view := ?_, oldest := prefix_rfl
    flusher := .inl ⟨rfl,rfl,htail⟩ }
  · rw [hwals]
    exact hasc.2
  · intro m hm
    apply h.below
    rw [hwals] at hm
    rw [hsplit]
    exact mem_cons_of_mem _ hm
  · rw [h.history,htwice,hops]
    simp only [append_assoc]
  · have hlogs := h.logs
    rw [hsplit,htwice,hops,append_assoc] at hlogs
    rw [hwals]
    exact append_cancel_left hlogs
  · intro k
    have hview := h.view k
    rw [htwice,hops,← append_assoc] at hview
    exact hview

section
variable (h : Live ops db w (.flushing entry (some p) rest) g)
  (hb : Building db.version.nextFileNumber (filesAt db.disk.listed 0) g.front entry p)
include h hb

theorem createTable
    (htail : g.tail = []) :
    Live ops { db with disk := db.disk.apply (.table (.create p)) } w (.flushing entry (some p)
      (.table (.complete p entry.sstable)::(recordOps (addRecord p) ++ unlinkOps entry.wals))) g :=
  { h with view := h.setTable hb.unlisted none, flusher := .inr ⟨p,rfl,hb,.inr (.inl ⟨rfl,htail⟩)⟩ }

theorem completeTable
    (htail : g.tail = []) :
    Live ops { db with disk := db.disk.apply (.table (.complete p entry.sstable)) } w
      (.flushing entry (some p) (recordOps (addRecord p) ++ unlinkOps entry.wals)) g := by
  refine { h with
    view := h.setTable hb.unlisted (some entry.sstable)
    flusher := .inr ⟨p,rfl,hb,.inr (.inr ⟨?_,.inl ⟨rfl,htail⟩⟩)⟩ }
  change entriesOf { db.disk with tables := db.disk.tables.set p (some entry.sstable) } p = _
  rw [entriesOf,reader,get_set,if_pos rfl]
  rfl

/-- The header alone does not change what a replay of the MANIFEST lists. -/
theorem writeHeader
    (hentries : db.disk.entriesOf p = entry.memtable.table.chain) (htail : g.tail = []) :
    Live ops { db with disk := db.disk.apply (.manifest (.write (.header (addRecord p)))) } w
      (.flushing entry (some p)
        (.manifest (.write (.payload (addRecord p)))::unlinkOps entry.wals))
      { g with tail := [.header (addRecord p)] } := by
  have hmanifest : (db.disk.apply (.manifest (.write (.header (addRecord p))))).manifest.active =
      some (recordChunks g.records ++ [.header (addRecord p)]) := by
    change db.disk.manifest.active.map _ = _
    rw [h.manifest,htail,append_nil]
    rfl
  have hlisted : (db.disk.apply (.manifest (.write (.header (addRecord p))))).listed = db.disk.listed := by
    rw [h.listed_eq,listed_of_active hmanifest (by simp [replayLog])]
  refine { h with manifest := hmanifest, flat := ?_, named := ?_, view := ?_, flusher := ?_ }
  · rw [hlisted]
    exact h.flat
  · rw [hlisted]
    exact h.named
  · rw [hlisted]
    exact h.view
  · rw [hlisted]
    exact .inr ⟨p,rfl,hb,.inr (.inr ⟨hentries,.inr ⟨rfl,rfl⟩⟩)⟩

/-- With its payload the record is complete and the table is listed behind the others. -/
theorem writePayload
    (hentries : db.disk.entriesOf p = entry.memtable.table.chain)
    (htail : g.tail = [.header (addRecord p)]) :
    Live ops { db with disk := db.disk.apply (.manifest (.write (.payload (addRecord p)))) } w
      (.flushing entry (some p) (unlinkOps entry.wals))
      { g with
        twice := walOps g.front
        logged := walOps (g.queued.flatten ++ g.active db.currentWal)
        records := g.records++[addRecord p]
        tail := [] } := by
  have hmanifest : (db.disk.apply (.manifest (.write (.payload (addRecord p))))).manifest.active =
      some (recordChunks (g.records++[addRecord p]) ++ []) := by
    change db.disk.manifest.active.map _ = _
    rw [h.manifest,htail]
    simp [recordChunks]
  have hlisted : (db.disk.apply (.manifest (.write (.payload (addRecord p))))).listed =
      pushFile db.disk.listed 0 ⟨p,p.number⟩ := by
    rw [h.listed_eq,listed_of_active hmanifest rfl,replayRecords_append,addRecord,hb.level]
    rfl
  have hfiles : filesAt (pushFile db.disk.listed 0 ⟨p,p.number⟩) 0 =
      filesAt db.disk.listed 0 ++ [⟨p,p.number⟩] := by rw [filesAt_pushFile,if_pos rfl]
  obtain ⟨x,hx⟩ := h.oldest
  have hx : g.twice++x = walOps g.front := hx
  have hlogged : g.logged = x ++ walOps (g.queued.flatten ++ g.active db.currentWal) := by
    have hlogs := h.logs
    rw [h.wals,walOps_append,← hx,append_assoc] at hlogs
    exact (append_cancel_left hlogs).symm
  refine { h with
    manifest := hmanifest, flat := ?_, named := ?_, history := ?_, logs := ?_, view := ?_, oldest := prefix_rfl
    flusher := .inl ⟨by rw [hb.wals],rfl,rfl⟩ }
  · intro i hi
    rw [hlisted,filesAt_pushFile,if_neg (by omega)]
    exact h.flat i hi
  · rw [hlisted,hfiles]
    intro m hm
    rcases mem_append.mp hm with hm | hm
    · exact h.named m hm
    · rw [mem_singleton.mp hm]
      exact ⟨by rw [← hb.level],hb.taken⟩
  · rw [h.history,hlogged,← hx]
    simp only [append_assoc]
  · change walOps db.disk.wals = _
    rw [h.wals,walOps_append]
  · intro k
    have hnew : tableLayer db.disk ⟨p,p.number⟩ k = lastOp (walOps g.front) k := by
      rw [tableLayer,hentries]
      exact hb.holds k
    rw [hlisted,hfiles]
    change overlay ((filesAt db.disk.listed 0 ++ [(⟨p,p.number⟩ : SSTableMeta)]).map
      (tableLayer db.disk)) k = _
    rw [map_append,overlay_append,map_singleton,overlay_singleton,hnew]
    change (lastOp (walOps g.front) k).or (tableView db.disk (filesAt db.disk.listed 0) k) = _
    rw [h.view k,← hx,lastOp_overlap,append_assoc]

end

theorem flusherCall {op : FsOp} (h : Live ops db w (.flushing entry path (op::rest)) g) :
    ∃ g', Live ops { db with disk := db.disk.apply op } w (.flushing entry path rest) g' := by
  rcases h.flusher with ⟨hrest,htwice,htail⟩ | ⟨p,rfl,hb,⟨hrest,htail⟩ | ⟨hrest,htail⟩ | ⟨hentries,
    ⟨hrest,htail⟩ | ⟨hrest,htail⟩⟩⟩
  · cases hfront : g.front with
    | nil =>
      rw [hfront] at hrest
      cases hrest
    | cons file front =>
      rw [hfront] at hrest
      obtain ⟨rfl,rfl⟩ := cons.inj hrest
      exact ⟨_,h.unlinkWal hfront htwice htail⟩
  · obtain ⟨rfl,rfl⟩ := cons.inj hrest
    exact ⟨_,h.createTable hb htail⟩
  · obtain ⟨rfl,rfl⟩ := cons.inj hrest
    exact ⟨_,h.completeTable hb htail⟩
  · obtain ⟨rfl,rfl⟩ := cons.inj hrest
    exact ⟨_,h.writeHeader hb hentries htail⟩
  · obtain ⟨rfl,rfl⟩ := cons.inj hrest
    exact ⟨_,h.writePayload hb hentries htail⟩

theorem endFlush (h : Live ops db w (.flushing entry path []) g) :
    Live ops (db.endFlush entry path) w .idle g := by
  have hdone : g.front = [] ∧ g.twice = [] ∧ g.tail = [] := by
    rcases h.flusher with ⟨hrest,htwice,htail⟩ | ⟨p,-,-,⟨hrest,-⟩ | ⟨hrest,-⟩ | ⟨-,⟨hrest,-⟩ | ⟨hrest,-⟩⟩⟩
    · have hfront : g.front = [] := map_eq_nil_iff.mp (map_eq_nil_iff.mp hrest.symm)
      exact ⟨hfront,by rw [htwice,hfront]; rfl,htail⟩
    · cases hrest
    · cases hrest
    · cases hrest
    · cases hrest
  have hnext : db.version.nextFileNumber≤(db.endFlush entry path).version.nextFileNumber := by
    cases path with
    | none => exact le_rfl
    | some p => exact Nat.le_max_left _ _
  have holdest : g.twice <+: walOps (g.oldest db.currentWal .idle) := by
    rw [hdone.2.1]
    exact nil_prefix
  cases path with
  | none =>
    exact { h with oldest := holdest, flusher := ⟨hdone.1,hdone.2.2⟩ }
  | some p =>
    exact { h with
      below := fun n hn => (h.below n hn).trans_le hnext
      named := fun m hm => (h.named m hm).imp_right fun hn => hn.trans_le hnext
      oldest := holdest, flusher := ⟨hdone.1,hdone.2.2⟩ }

end Flushing
end Live
end TitanKV.Minikv
