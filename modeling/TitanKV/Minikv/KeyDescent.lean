import TitanKV.Minikv.ThreadsTidy

/-! Where a key can be found while the threads work. A key that is stored once stays in a MemTable that
readers can get or in a listed file, and its files only move to deeper levels: a table is listed before
the MemTable or the tables it was made of are given up. -/
namespace TitanKV.Minikv
open List

section Entries
variable {k v : Bytes}

def Shows (k : Bytes) (es : List Entry) : Prop := ∃ e ∈ es, e.key.userKey = k

def Only (k v : Bytes) (es : List Entry) : Prop := ∀ e ∈ es, e.key.userKey = k → e.live = some v

lemma not_shows_nil : ¬Shows k [] := by
  rintro ⟨e,⟨⟩,-⟩

variable {es : List Entry}

lemma lookup_of_shows (hasc : Ascending es) (honly : Only k v es) (h : Shows k es) :
    lookup k es = some v := by
  obtain ⟨e,he,hk⟩ := h
  rw [lookup_eq hasc]
  cases hn : newest es k with
  | none =>
    rw [newest,find?_eq_none] at hn
    exact absurd hk (by simpa using hn e he)
  | some e' => exact honly e' (mem_of_find?_eq_some hn) (by simpa using find?_some hn)

lemma lookup_of_not_shows (hasc : Ascending es) (h : ¬Shows k es) : lookup k es = none := by
  rw [lookup_eq hasc]
  have hnone : newest es k = none := by
    rw [newest,find?_eq_none]
    intro e he
    simpa using fun hk => h ⟨e,he,hk⟩
  rw [hnone]
  rfl

lemma shows_skipPut {key : InternalKey} {value : Bytes} :
    Shows k (skipPut key value es) ↔ key.userKey = k ∨ Shows k es := by
  induction es with
  | nil => simp [Shows,skipPut]
  | cons x xs ih =>
    have hcons : ∀ {y : Entry} {ys : List Entry}, Shows k (y::ys) ↔ y.key.userKey = k ∨ Shows k ys := by
      simp [Shows]
    rw [skipPut]
    split
    · rw [hcons,hcons,ih]
      tauto
    · split
      · rename_i heq
        rw [hcons,hcons,heq]
        tauto
      · rw [hcons]

lemma shows_putOps {m : MemTable} {n : ℕ} {ops : List BatchOp} :
    Shows k (m.putOps n ops).chain ↔ Shows k m.chain ∨ ∃ op ∈ ops, op.key = k := by
  induction ops generalizing m n with
  | nil => simp [MemTable.putOps]
  | cons op ops ih =>
    have hput : Shows k (m.put op.key op.value n op.isDelete).chain ↔ op.key = k ∨ Shows k m.chain := shows_skipPut
    rw [MemTable.putOps,ih,hput]
    simp only [mem_cons,exists_eq_or_imp]
    tauto

lemma only_putOps {m : MemTable} {n : ℕ} {ops : List BatchOp} (h : Only k v m.chain)
    (hops : ∀ op ∈ ops, op.key = k → op = ⟨.put,k,v⟩) : Only k v (m.putOps n ops).chain := by
  induction ops generalizing m n with
  | nil => exact h
  | cons op ops ih =>
    refine ih ?_ fun op hop => hops op (by simp [hop])
    intro e he hk
    rcases mem_skipPut he with rfl | he
    · rw [hops op (by simp) hk]
      rfl
    · exact h e he hk

variable {sources : List TablePath}

lemma shows_mergedTable {d : Disk} (hk : k ≠ [])
    (honly : ∀ path ∈ sources, Only k v (d.entriesOf path)) {path : TablePath} (hpath : path ∈ sources)
    (h : Shows k (d.entriesOf path)) : Shows k (mergedTable d sources).entries := by
  obtain ⟨e,he,hek⟩ := h
  have hmem : ∀ {e : Entry}, e ∈ sortedEntries d sources ↔ ∃ path ∈ sources, e ∈ d.entriesOf path := by
    intro e
    rw [sortedEntries,mem_insertionSort,sourceEntries,mem_flatMap]
  cases hn : newest (sortedEntries d sources) k with
  | none =>
    rw [newest,find?_eq_none] at hn
    exact absurd hek (by simpa using hn e (hmem.mpr ⟨path,hpath,he⟩))
  | some e' =>
    have hkey : e'.key.userKey = k := by simpa using find?_some hn
    obtain ⟨p,hp,he'⟩ := hmem.mp (mem_of_find?_eq_some hn)
    have hlive := honly p hp e' he' hkey
    have hput : e'.key.isDeletion = false := by
      by_contra hdel
      simp [Entry.live,hdel] at hlive
    have hkept := newest_merged d sources k
    rw [hn,if_neg hk] at hkept
    simp only [Option.filter,hput,Bool.not_false,if_true] at hkept
    exact ⟨e',mem_of_find?_eq_some hkept,hkey⟩

lemma only_mergedTable {d : Disk}
    (honly : ∀ path ∈ sources, Only k v (d.entriesOf path)) : Only k v (mergedTable d sources).entries := by
  intro e he
  have hmem := (keepNewest_sublist _ _ _ _).subset he
  rw [sortedEntries,mem_insertionSort,sourceEntries,mem_flatMap] at hmem
  obtain ⟨path,hpath,he⟩ := hmem
  exact honly path hpath e he

end Entries

namespace DBImpl
variable {db db' : DBImpl} {k v : Bytes}

def Stocked (db : DBImpl) (k : Bytes) (i : ℕ) : Prop :=
  ∃ path ∈ db.version.getLevelFiles i, Shows k (db.disk.entriesOf path)

/-- The key is on this level or on a deeper one that `get` visits. -/
def Below (db : DBImpl) (k : Bytes) (n : ℕ) : Prop := ∃ i, n ≤ i ∧ i≤db.options.maxLevel ∧ db.Stocked k i

/-- Every version of the key, in memory and in the listed files, is the put of this value. -/
structure OnlyPut (db : DBImpl) (k v : Bytes) : Prop where
  memtable : Only k v db.memtable.table.chain
  frozen : ∀ m ∈ db.immutableList, Only k v m.table.chain
  files : ∀ i, ∀ path ∈ db.version.getLevelFiles i, Only k v (db.disk.entriesOf path)

/-- The key is in a MemTable that readers can get or in a file on a level that they visit. -/
def Stored (db : DBImpl) (k : Bytes) : Prop :=
  Shows k db.memtable.table.chain ∨ (∃ m ∈ db.immutableList, Shows k m.table.chain) ∨ db.Below k 0

lemma Below.keep {n : ℕ} (h : db.Below k n) (hoptions : db'.options = db.options)
    (hfiles : ∀ i, ∀ path ∈ db.version.getLevelFiles i,
      path ∈ db'.version.getLevelFiles i ∧ db'.disk.entriesOf path = db.disk.entriesOf path) : db'.Below k n := by
  obtain ⟨i,hn,hmax,path,hpath,hshows⟩ := h
  obtain ⟨hpath',hentries⟩ := hfiles i path hpath
  exact ⟨i,hn,hoptions ▸ hmax,path,hpath',hentries ▸ hshows⟩

lemma OnlyPut.keep (h : db.OnlyPut k v) (hmem : db'.memtable = db.memtable)
    (hfrozen : db'.immutableList ⊆ db.immutableList)
    (hfiles : ∀ i, ∀ path ∈ db'.version.getLevelFiles i, path ∈ db.version.getLevelFiles i ∧
      db'.disk.entriesOf path = db.disk.entriesOf path ∨ Only k v (db'.disk.entriesOf path)) :
    db'.OnlyPut k v := by
  refine ⟨hmem ▸ h.memtable,fun m hm => h.frozen m (hfrozen hm),fun i path hpath => ?_⟩
  rcases hfiles i path hpath with ⟨hold,heq⟩ | honly
  · rw [heq]
    exact h.files i path hold
  · exact honly

lemma OnlyPut.tableOp (h : db.OnlyPut k v) (hp : db.Placed) {op : TableOp} (hunlisted : db.Unlisted op.path) :
    (db.calls [.table op]).OnlyPut k v :=
  h.keep rfl (fun _ h => h) fun _ _ hpath =>
    .inl ⟨hpath,db.disk.entriesOf_tableOp op (hunlisted.ne hp hpath)⟩

def listFile (db : DBImpl) (path : TablePath) : DBImpl :=
  { db.calls (recordOps (.add path.level path path.number)) with
    version := db.version.addLevelFile path.level path }

lemma mem_listFile {path p : TablePath} {i : ℕ} : p ∈ (db.listFile path).version.getLevelFiles i ↔
    p ∈ db.version.getLevelFiles i ∨ path.level = i ∧ p = path := by
  change p ∈ (db.version.addLevelFile path.level path).getLevelFiles i ↔ _
  rw [Version.getLevelFiles_addLevelFile]
  split
  · rename_i hlevel
    simp [hlevel]
  · rename_i hlevel
    simp [hlevel]

lemma Below.listFile {n : ℕ} (h : db.Below k n) (path : TablePath) : (db.listFile path).Below k n :=
  h.keep rfl fun _ _ hp => ⟨mem_listFile.mpr (.inl hp),rfl⟩

lemma below_listFile {path : TablePath} (hshows : Shows k (db.disk.entriesOf path))
    (hmax : path.level≤db.options.maxLevel) : (db.listFile path).Below k path.level :=
  ⟨path.level,le_rfl,hmax,path,mem_listFile.mpr (.inr ⟨rfl,rfl⟩),hshows⟩

lemma OnlyPut.listFile (h : db.OnlyPut k v) {path : TablePath} (hnew : Only k v (db.disk.entriesOf path)) :
    (db.listFile path).OnlyPut k v := by
  refine h.keep rfl (fun _ h => h) fun i p hp => ?_
  rcases mem_listFile.mp hp with hp | ⟨-,rfl⟩
  · exact .inl ⟨hp,rfl⟩
  · exact .inr hnew

def retractFiles (db : DBImpl) (level : ℕ) (sources : List TablePath) : DBImpl :=
  { db.calls ((removeRecords db.version.levels level sources).flatMap recordOps) with
    version := db.version.removeLevelFiles level sources }

variable {sources : List TablePath}

lemma mem_retractFiles {level i : ℕ} {p : TablePath} :
    p ∈ (db.retractFiles level sources).version.getLevelFiles i ↔
      p ∈ db.version.getLevelFiles i ∧ (level = i → p ∉ sources) := by
  change p ∈ (db.version.removeLevelFiles level sources).getLevelFiles i ↔ _
  rw [Version.getLevelFiles_removeLevelFiles]
  split
  · rename_i hlevel
    simp [hlevel]
  · rename_i hlevel
    simp [hlevel]

lemma entriesOf_retractFiles (db : DBImpl) (level : ℕ) (sources : List TablePath) (path : TablePath) :
    (db.retractFiles level sources).disk.entriesOf path = db.disk.entriesOf path :=
  entriesOf_records _ _ _

/-- Sources may go once the next level has what they have. -/
lemma Below.retractFiles {n level : ℕ} (h : db.Below k n)
    (hmax : level<db.options.maxLevel)
    (hmoved : ∀ path ∈ sources, Shows k (db.disk.entriesOf path) → db.Stocked k (level+1)) :
    (db.retractFiles level sources).Below k n := by
  have hkeep : ∀ {i : ℕ} {path : TablePath}, path ∈ db.version.getLevelFiles i → Shows k (db.disk.entriesOf path) →
      (level = i → path ∉ sources) → (db.retractFiles level sources).Stocked k i := by
    intro i path hpath hshows hout
    refine ⟨path,mem_retractFiles.mpr ⟨hpath,hout⟩,?_⟩
    rwa [entriesOf_retractFiles]
  obtain ⟨i,hn,hi,path,hpath,hshows⟩ := h
  by_cases hgone : level = i ∧ path ∈ sources
  · obtain ⟨rfl,hsource⟩ := hgone
    obtain ⟨newFile,hnew,hshows'⟩ := hmoved path hsource hshows
    exact ⟨level+1,by omega,hmax,hkeep hnew hshows' fun heq => by omega⟩
  · exact ⟨i,hn,hi,hkeep hpath hshows fun heq hsource => hgone ⟨heq,hsource⟩⟩

lemma OnlyPut.retractFiles (h : db.OnlyPut k v) (level : ℕ) (sources : List TablePath) :
    (db.retractFiles level sources).OnlyPut k v :=
  h.keep rfl (fun _ h => h) fun _ path hp => .inl ⟨(mem_retractFiles.mp hp).1,entriesOf_retractFiles _ _ _ path⟩

end DBImpl

/-- A MemTable leaves the list of frozen ones only when its table can be found. -/
def FlushThread.Kept (db : DBImpl) (k : Bytes) : FlushThread → Prop
  | erasing entry => Shows k entry.memtable.table.chain → db.Below k 0
  | _ => True

/-- A source is unlinked only when the next level holds what it held. -/
def CompactionThread.Kept (db : DBImpl) (k : Bytes) : CompactionThread → Prop
  | unlinking paths => ∀ path ∈ paths, Shows k (db.disk.entriesOf path) → db.Below k (path.level+1)
  | _ => True

namespace Threads
variable {s s' : Threads} {k v : Bytes}

structure Safe (s : Threads) (k v : Bytes) : Prop where
  tidy : s.Tidy
  only : s.db.OnlyPut k v
  flusher : s.flusher.Kept s.db k
  compactor : s.compactor.Kept s.db k

/-- What a step means for a reader that has taken its pointers: files with the key only move down, and
a file that it knows of keeps its contents until it is unlinked, after which a deeper level has them. -/
structure Moves (s s' : Threads) (k : Bytes) : Prop where
  options : s'.db.options = s.db.options
  next : s.db.version.nextFileNumber ≤ s'.db.version.nextFileNumber
  below : ∀ n, s.db.Below k n → s'.db.Below k n
  flusher : ∀ path, path.number<s.db.version.nextFileNumber → s.flusher.target ≠ some path →
    s'.flusher.target ≠ some path
  compactor : ∀ path, path.number<s.db.version.nextFileNumber → s.compactor.target ≠ some path →
    s'.compactor.target ≠ some path
  files : ∀ path, s.flusher.target ≠ some path → s.compactor.target ≠ some path →
    s'.db.disk.entriesOf path = s.db.disk.entriesOf path ∨
      s'.db.disk.entriesOf path = [] ∧ (Shows k (s.db.disk.entriesOf path) → s'.db.Below k (path.level+1))

lemma Moves.of_frame (hoptions : s'.db.options = s.db.options)
    (hnext : s.db.version.nextFileNumber ≤ s'.db.version.nextFileNumber)
    (hlists : ∀ i, s'.db.version.getLevelFiles i = s.db.version.getLevelFiles i)
    (hentries : s'.db.disk.entriesOf = s.db.disk.entriesOf)
    (hflusher : ∀ path, path.number<s.db.version.nextFileNumber → s.flusher.target ≠ some path →
      s'.flusher.target ≠ some path)
    (hcompactor : ∀ path, path.number<s.db.version.nextFileNumber → s.compactor.target ≠ some path →
      s'.compactor.target ≠ some path) : Moves s s' k :=
  ⟨hoptions,hnext,fun _ h => h.keep hoptions fun i path hpath => ⟨hlists i ▸ hpath,by rw [hentries]⟩,
    hflusher,hcompactor,fun _ _ _ => .inl (by rw [hentries])⟩

lemma Moves.of_tableOp (op : TableOp) (hp : s.db.Placed) (hunlisted : s.db.Unlisted op.path)
    (hdb : s'.db = s.db.calls [.table op])
    (hfiles : s.flusher.target ≠ some op.path → s.compactor.target ≠ some op.path →
      s'.db.disk.entriesOf op.path = [] ∧ (Shows k (s.db.disk.entriesOf op.path) → s'.db.Below k (op.path.level+1)))
    (hflusher : ∀ path, path.number<s.db.version.nextFileNumber → s.flusher.target ≠ some path →
      s'.flusher.target ≠ some path)
    (hcompactor : ∀ path, path.number<s.db.version.nextFileNumber → s.compactor.target ≠ some path →
      s'.compactor.target ≠ some path) : Moves s s' k := by
  refine ⟨by rw [hdb]; rfl,by rw [hdb]; rfl,?_,hflusher,hcompactor,?_⟩
  · intro n h
    rw [hdb]
    exact h.keep rfl fun i path hpath => ⟨hpath,s.db.disk.entriesOf_tableOp op (hunlisted.ne hp hpath)⟩
  · intro path hf hc
    by_cases heq : path = op.path
    · rw [heq] at hf hc ⊢
      exact .inr (hfiles hf hc)
    · rw [hdb]
      exact .inl (s.db.disk.entriesOf_tableOp op heq)

/-- What a background step leaves of a stored key, besides what it means for readers. -/
structure Advances (s s' : Threads) (k v : Bytes) : Prop where
  safe : s'.Safe k v
  moves : Moves s s' k
  memtable : s'.db.memtable = s.db.memtable
  nextId : s'.db.nextId = s.db.nextId
  stored : s.db.Stored k → s'.db.Stored k

/-- The part of `Advances` that is the same for every step of the flush thread. -/
lemma Safe.advances_flush (h : s.Safe k v) (hstep : s.flushStep = some s') (hmoves : Moves s s' k)
    (honly : s'.db.OnlyPut k v) (hkept : s'.flusher.Kept s'.db k) (hcompactor : s'.compactor = s.compactor)
    (hmem : s'.db.memtable = s.db.memtable) (hid : s'.db.nextId = s.db.nextId)
    (hfrozen : ∀ m ∈ s.db.immutableList, Shows k m.table.chain → m ∈ s'.db.immutableList ∨ s'.db.Below k 0) :
    Advances s s' k v := by
  refine ⟨⟨h.tidy.flush hstep,honly,hkept,?_⟩,hmoves,hmem,hid,?_⟩
  · have hold := h.compactor
    have hapart := h.tidy.apart
    have hnone : ∀ paths, s.compactor = .unlinking paths → s.compactor.target = none := by
      rintro paths hc
      rw [hc]
      rfl
    rw [hcompactor]
    cases hc : s.compactor with
    | unlinking paths =>
      intro path hpath hshows
      rw [hc] at hold hapart
      rcases hmoves.files path (fun ht => hapart path ht hpath) (by simp [hnone paths hc]) with heq | ⟨hnil,-⟩
      · rw [heq] at hshows
        exact hmoves.below _ (hold path hpath hshows)
      · rw [hnil] at hshows
        exact absurd hshows not_shows_nil
    | _ => trivial
  · rintro (hshows | ⟨m,hm,hshows⟩ | hbelow)
    · exact .inl (hmem ▸ hshows)
    · rcases hfrozen m hm hshows with hm | hbelow
      · exact .inr (.inl ⟨m,hm,hshows⟩)
      · exact .inr (.inr hbelow)
    · exact .inr (.inr (hmoves.below 0 hbelow))

section Flush
variable {db db' : DBImpl} {f f' : FlushThread} {c : CompactionThread} {m : MemTableRef}

lemma Safe.advances_idle (h : Safe ⟨db,f,c⟩ k v) (hstep : flushStep ⟨db,f,c⟩ = some ⟨db',f',c⟩)
    (hoptions : db'.options = db.options) (hversion : db'.version = db.version)
    (hentries : db'.disk.entriesOf = db.disk.entriesOf) (hmem : db'.memtable = db.memtable)
    (hid : db'.nextId = db.nextId) (hfrozen : db'.immutableList = db.immutableList) (htarget : f'.target = none)
    (hkept : f'.Kept db' k) :
    Advances ⟨db,f,c⟩ ⟨db',f',c⟩ k v := by
  refine h.advances_flush hstep (Moves.of_frame hoptions (by rw [hversion]) (fun i => by rw [hversion]) hentries
    (fun _ _ _ => by simp [htarget]) fun _ _ h => h) (h.only.keep hmem (fun _ hm => hfrozen ▸ hm) ?_)
      hkept rfl hmem hid
    fun m hm _ => .inl (hfrozen ▸ hm)
  rw [hversion,hentries]
  exact fun _ _ hp => .inl ⟨hp,rfl⟩

lemma Safe.advances_erase (h : Safe ⟨db,f,c⟩ k v) (hstep : flushStep ⟨db,f,c⟩ = some ⟨db.eraseImmutable m,f',c⟩)
    (hheld : f.held = [m]) (htarget : f'.target = none) (hkept : f'.Kept (db.eraseImmutable m) k)
    (hfound : Shows k m.table.chain → (db.eraseImmutable m).Below k 0) :
    Advances ⟨db,f,c⟩ ⟨db.eraseImmutable m,f',c⟩ k v := by
  have hfrozen := h.tidy.frozen
  rw [hheld] at hfrozen
  refine h.advances_flush hstep (Moves.of_frame rfl le_rfl (fun _ => rfl) rfl (fun _ _ _ => by simp [htarget])
    fun _ _ h => h) (h.only.keep rfl (fun _ hm => mem_of_mem_eraseP hm) fun _ _ hp => .inl ⟨hp,rfl⟩) hkept rfl rfl
    rfl ?_
  intro m' hm' hshows
  rw [hfrozen] at hm'
  rcases mem_append.mp hm' with hm' | hm'
  · rw [mem_singleton.mp hm'] at hshows
    exact .inr (hfound hshows)
  · exact .inl ((eraseImmutable_head hfrozen).symm ▸ hm')

end Flush

theorem Safe.flush (h : s.Safe k v) (hstep : s.flushStep = some s') : Advances s s' k v := by
  obtain ⟨db,f,c⟩ := s
  have htidy := h.tidy
  have honly := h.only
  have hf := h.tidy.flusher
  cases flushStep_cases hstep with
  | skip _ _ | unlink _ _ | done | drop _ _ _ => exact h.advances_idle hstep rfl rfl rfl rfl rfl rfl rfl trivial
  | take _ _ =>
    refine h.advances_flush hstep (Moves.of_frame rfl (Nat.le_succ _) (fun _ => rfl) rfl ?_
      fun _ _ h => h) { honly with } trivial rfl rfl rfl fun m hm _ => .inl hm
    rintro path hnumber - heq
    obtain rfl := Option.some.inj heq
    exact lt_irrefl _ hnumber
  | create entry path =>
    exact h.advances_flush hstep
      (Moves.of_tableOp (.create path) htidy.db.placed hf.1 rfl (fun hne => (hne rfl).elim)
      (fun _ _ h => h) fun _ _ h => h) (honly.tableOp htidy.db.placed hf.1) trivial rfl rfl rfl fun m hm _ => .inl hm
  | build entry path =>
    exact h.advances_flush hstep (Moves.of_tableOp (.complete path entry.sstable) htidy.db.placed hf.1 rfl
      (fun hne => (hne rfl).elim) (fun _ _ h => h) fun _ _ h => h) (honly.tableOp htidy.db.placed hf.1) trivial
      rfl rfl rfl fun m hm _ => .inl hm
  | list entry path =>
    have hmember : entry.memtable ∈ db.immutableList := by
      rw [htidy.frozen]
      simp [FlushThread.held]
    refine h.advances_flush hstep ⟨rfl,Nat.le_max_left _ _,fun n hb => hb.listFile path,
      fun _ _ _ => by simp [FlushThread.target],fun _ _ h => h,fun _ _ _ => .inl rfl⟩
        (honly.listFile ?_) ?_ rfl rfl rfl
      fun m hm _ => .inl hm
    · rw [hf.2]
      exact honly.frozen _ hmember
    · intro hshows
      have hbelow : (db.listFile path).Below k path.level :=
        DBImpl.below_listFile (hf.2.symm ▸ hshows) (by rw [hf.1.2]; exact Nat.zero_le _)
      rwa [hf.1.2] at hbelow
  | erase entry => exact h.advances_erase hstep rfl rfl trivial h.flusher
  | dropped entry =>
    refine h.advances_erase hstep rfl rfl trivial fun hshows => ?_
    rw [hf] at hshows
    exact absurd hshows not_shows_nil

/-- The part of `Advances` that is the same for every step of the compaction thread. -/
lemma Safe.advances_compact (h : s.Safe k v) (htidy : s'.Tidy) (hmoves : Moves s s' k)
    (honly : s'.db.OnlyPut k v) (hkept : s'.compactor.Kept s'.db k) (hflusher : s'.flusher = s.flusher)
    (hmem : s'.db.memtable = s.db.memtable) (hid : s'.db.nextId = s.db.nextId)
    (hfrozen : s'.db.immutableList = s.db.immutableList) : Advances s s' k v := by
  refine ⟨⟨htidy,honly,?_,hkept⟩,hmoves,hmem,hid,?_⟩
  · have hold := h.flusher
    rw [hflusher]
    cases hf : s.flusher with
    | erasing entry =>
      rw [hf] at hold
      exact fun hshows => hmoves.below 0 (hold hshows)
    | _ => trivial
  · rintro (hshows | hshows | hbelow)
    · exact .inl (hmem ▸ hshows)
    · exact .inr (.inl (hfrozen ▸ hshows))
    · exact .inr (.inr (hmoves.below 0 hbelow))

lemma Safe.merge (h : s.Safe k v) {level : ℕ} (hstep : s.step (.merge level) = some s') : Advances s s' k v := by
  have htidy := h.tidy.merge hstep
  obtain ⟨-,-,rfl⟩ := merge_eq hstep
  exact h.advances_compact htidy
    (Moves.of_frame rfl le_rfl (fun _ => rfl) rfl (fun _ _ h => h) fun _ _ _ => by simp [CompactionThread.target])
    h.only trivial rfl rfl rfl rfl

/-- The sources go out of the lists: what they show is on the next level. -/
lemma Safe.retract {db : DBImpl} {f : FlushThread} {level : ℕ} {sources : List TablePath} (hk : k ≠ [])
    (h : Safe ⟨db,f,.retracting level sources⟩ k v)
    (htidy' : Tidy ⟨db.retractFiles level sources,f,.unlinking sources⟩) :
    Advances ⟨db,f,.retracting level sources⟩ ⟨db.retractFiles level sources,f,.unlinking sources⟩ k v := by
  have htidy := h.tidy
  have honly := h.only
  obtain ⟨hmerging,hresult⟩ := h.tidy.compactor
  have hlisted : ∀ {path : TablePath}, path ∈ sources → path ∈ db.version.getLevelFiles level :=
    fun hpath => hmerging.listed.subset hpath
  have hmoved : ∀ path ∈ sources, Shows k (db.disk.entriesOf path) → db.Stocked k (level+1) := by
    intro path hpath hshows
    have hmerged := shows_mergedTable hk (fun p hp => honly.files level p (hlisted hp)) hpath hshows
    rcases hresult with hnil | ⟨newFile,hnew,hentries⟩
    · rw [hnil] at hmerged
      exact absurd hmerged not_shows_nil
    · exact ⟨newFile,hnew,hentries ▸ hmerged⟩
  refine h.advances_compact htidy' ⟨rfl,le_rfl,fun n hb => hb.retractFiles hmerging.below hmoved,
    fun _ _ h => h,fun _ _ h => h,fun p _ _ => .inl (db.entriesOf_retractFiles level sources p)⟩
    (honly.retractFiles level sources) ?_ rfl rfl rfl rfl
  intro path hpath hshows
  rw [DBImpl.entriesOf_retractFiles] at hshows
  have hbelow : db.Below k (path.level+1) := by
    rw [(htidy.db.placed.of_mem (hlisted hpath)).1]
    exact ⟨level+1,le_rfl,hmerging.below,hmoved path hpath hshows⟩
  exact hbelow.retractFiles hmerging.below hmoved

/-- A source is unlinked: what it shows is below its level. -/
lemma Safe.unlink {db : DBImpl} {f : FlushThread} {path : TablePath} {paths : List TablePath}
    (h : Safe ⟨db,f,.unlinking (path::paths)⟩ k v)
    (htidy' : Tidy ⟨db.calls [.table (.unlink path)],f,.unlinking paths⟩) :
    Advances ⟨db,f,.unlinking (path::paths)⟩ ⟨db.calls [.table (.unlink path)],f,.unlinking paths⟩ k v := by
  have htidy := h.tidy
  have honly := h.only
  have hunlisted := h.tidy.compactor path (by simp)
  have hempty : (db.calls [.table (.unlink path)]).disk.entriesOf path = [] := by
    simp [DBImpl.calls,Disk.exec,CrashPoints.exec,Disk.apply,TableOp.apply,Disk.entriesOf,Disk.reader,
      Directory.get_unlink]
  have hbelow : ∀ n, db.Below k n → (db.calls [.table (.unlink path)]).Below k n :=
    fun n hb => hb.keep rfl fun i p hp =>
      ⟨hp,db.disk.entriesOf_tableOp (.unlink path) (hunlisted.ne htidy.db.placed hp)⟩
  refine h.advances_compact htidy' (Moves.of_tableOp (.unlink path) htidy.db.placed hunlisted rfl
    (fun _ _ => ⟨hempty,fun hshows => hbelow _ (h.compactor path (by simp) hshows)⟩) (fun _ _ h => h)
    fun _ _ h => h) (honly.tableOp htidy.db.placed hunlisted) ?_ rfl rfl rfl rfl
  intro p hp hshows
  by_cases heq : p = path
  · rw [heq] at hshows
    rw [hempty] at hshows
    exact absurd hshows not_shows_nil
  · refine hbelow _ (h.compactor p (by simp [hp]) ?_)
    rwa [← db.disk.entriesOf_tableOp (.unlink path) heq]

theorem Safe.compact (hk : k ≠ []) (h : s.Safe k v) (hstep : s.compactStep = some s') : Advances s s' k v := by
  have htidy' := h.tidy.compact hstep
  obtain ⟨db,f,c⟩ := s
  have htidy := h.tidy
  have honly := h.only
  have hc := h.tidy.compactor
  cases compactStep_cases hstep with
  | number level sources all =>
    refine h.advances_compact htidy' (Moves.of_frame rfl (Nat.le_succ _) (fun _ => rfl) rfl (fun _ _ h => h) ?_)
      { honly with } trivial rfl rfl rfl rfl
    rintro path hnumber - heq
    obtain rfl := Option.some.inj heq
    exact lt_irrefl _ hnumber
  | read _ _ _ _ _ | done =>
    exact h.advances_compact htidy' (Moves.of_frame rfl le_rfl (fun _ => rfl) rfl (fun _ _ h => h) fun _ _ h => h)
      honly trivial rfl rfl rfl rfl
  | create level sources newFile merged =>
    have hunlisted := MergedInto.unlisted hc
    exact h.advances_compact htidy' (Moves.of_tableOp (.create newFile) htidy.db.placed hunlisted rfl
      (fun _ hne => (hne rfl).elim) (fun _ _ h => h) fun _ _ h => h)
        (honly.tableOp htidy.db.placed hunlisted) trivial
      rfl rfl rfl rfl
  | build level sources newFile merged =>
    have hunlisted := MergedInto.unlisted hc
    exact h.advances_compact htidy' (Moves.of_tableOp (.complete newFile merged) htidy.db.placed hunlisted rfl
      (fun _ hne => (hne rfl).elim) (fun _ _ h => h) fun _ _ h => h)
        (honly.tableOp htidy.db.placed hunlisted) trivial
      rfl rfl rfl rfl
  | discard level sources newFile merged _ =>
    have hunlisted := hc.1.unlisted
    exact h.advances_compact htidy' (Moves.of_tableOp (.unlink newFile) htidy.db.placed hunlisted rfl
      (fun _ hne => (hne rfl).elim) (fun _ _ h => h) fun _ _ _ => by simp [CompactionThread.target])
      (honly.tableOp htidy.db.placed hunlisted) trivial rfl rfl rfl rfl
  | list level sources newFile merged _ =>
    obtain ⟨hinto,hentries⟩ := hc
    refine h.advances_compact htidy' ⟨rfl,Nat.le_max_left _ _,fun n hb => hb.listFile newFile,
      fun _ _ h => h,fun _ _ _ => by simp [CompactionThread.target],fun _ _ _ => .inl rfl⟩ (honly.listFile ?_)
      trivial rfl rfl rfl rfl
    rw [hentries,hinto.merged]
    exact only_mergedTable fun path hpath => honly.files level path (hinto.listed.subset hpath)
  | retract level sources => exact h.retract hk htidy'
  | unlink path paths => exact h.unlink htidy'

lemma written_table (db : DBImpl) (group : WriteGroup) :
    (db.written group).table = db.memtable.table.putOps (db.seq+1) group.flatten := by
  rw [DBImpl.written,DBImpl.writeGroup]
  split
  · rename_i hempty
    rw [isEmpty_iff.mp hempty]
    rfl
  · exact applyGroup_eq _ _ _

theorem Safe.write (h : s.Safe k v) {group : WriteGroup}
    (hops : ∀ op ∈ group.flatten, op.key = k → op = ⟨.put,k,v⟩) :
    Safe { s with db := s.db.doWriteGroup group } k v ∧ Moves s { s with db := s.db.doWriteGroup group } k ∧
      (s.db.Stored k ∨ (∃ op ∈ group.flatten, op.key = k) → (s.db.doWriteGroup group).Stored k) := by
  have hw := s.db.wrote_doWriteGroup group
  have hlists : ∀ i, (s.db.doWriteGroup group).version.getLevelFiles i = s.db.version.getLevelFiles i := by
    intro i
    rw [Version.getLevelFiles,hw.levels]
    rfl
  have hmoves : Moves s { s with db := s.db.doWriteGroup group } k :=
    Moves.of_frame hw.options hw.next hlists hw.entries (fun _ _ h => h) fun _ _ h => h
  have honly : Only k v (s.db.written group).table.chain := by
    rw [written_table]
    exact only_putOps h.only.memtable hops
  have hshows : Shows k s.db.memtable.table.chain ∨ (∃ op ∈ group.flatten, op.key = k) →
      Shows k (s.db.written group).table.chain := by
    rw [written_table,shows_putOps]
    exact id
  have hfiles : ∀ i, ∀ path ∈ (s.db.doWriteGroup group).version.getLevelFiles i,
      Only k v ((s.db.doWriteGroup group).disk.entriesOf path) := by
    intro i path hpath
    rw [hw.entries]
    exact h.only.files i path (hlists i ▸ hpath)
  have hflusher : s.flusher.Kept (s.db.doWriteGroup group) k := by
    have hold := h.flusher
    cases hf : s.flusher with
    | erasing entry =>
      rw [hf] at hold
      exact fun hs => hmoves.below 0 (hold hs)
    | _ => trivial
  have hcompactor : s.compactor.Kept (s.db.doWriteGroup group) k := by
    have hold := h.compactor
    cases hc : s.compactor with
    | unlinking paths =>
      rw [hc] at hold
      intro path hpath hs
      rw [hw.entries] at hs
      exact hmoves.below _ (hold path hpath hs)
    | _ => trivial
  rcases hw.frozen with ⟨hmem,-,himm,-⟩ | ⟨hmem,-,himm,-⟩
  · refine ⟨⟨h.tidy.write group,⟨hmem ▸ honly,himm ▸ h.only.frozen,hfiles⟩,hflusher,hcompactor⟩,hmoves,?_⟩
    rintro ((hs | ⟨m,hm,hs⟩ | hs) | hs)
    · exact .inl (hmem ▸ hshows (.inl hs))
    · exact .inr (.inl ⟨m,himm ▸ hm,hs⟩)
    · exact .inr (.inr (hmoves.below 0 hs))
    · exact .inl (hmem ▸ hshows (.inr hs))
  · have hnew : s.db.written group ∈ (s.db.doWriteGroup group).immutableList := by simp [himm]
    refine ⟨⟨h.tidy.write group,⟨?_,?_,hfiles⟩,hflusher,hcompactor⟩,hmoves,?_⟩
    · rw [hmem]
      exact fun e he => by cases he
    · intro m hm
      rw [himm] at hm
      rcases mem_append.mp hm with hm | hm
      · exact h.only.frozen m hm
      · rw [mem_singleton.mp hm]
        exact honly
    · rintro ((hs | ⟨m,hm,hs⟩ | hs) | hs)
      · exact .inr (.inl ⟨_,hnew,hshows (.inl hs)⟩)
      · exact .inr (.inl ⟨m,himm ▸ mem_append_left _ hm,hs⟩)
      · exact .inr (.inr (hmoves.below 0 hs))
      · exact .inr (.inl ⟨_,hnew,hshows (.inr hs)⟩)

end Threads

end TitanKV.Minikv
