import TitanKV.Minikv.SSTableBlocks
import TitanKV.Minikv.Store

/-! What a flush gives up and what it leaves readable, whatever its calls do. -/
namespace TitanKV.Minikv
open List Directory Entry

section Listing
variable {π : Type}

lemma mem_flatten_iff {ls : LevelLists π} {m : FileMeta π} : m ∈ ls.flatten ↔ ∃ i, m ∈ filesAt ls i := by
  constructor
  · intro h
    obtain ⟨files,hfiles,hm⟩ := mem_flatten.mp h
    obtain ⟨i,hi⟩ := mem_iff_getElem?.mp hfiles
    exact ⟨i,by simpa [filesAt,getD_eq_getElem?_getD,hi] using hm⟩
  · rintro ⟨i,hi⟩
    exact mem_flatten_of_mem_filesAt hi

lemma mem_flatten_pushFile {ls : LevelLists π} {level : ℕ} {m x : FileMeta π} :
    x ∈ (pushFile ls level m).flatten ↔ x ∈ ls.flatten ∨ x = m := by
  simp only [mem_flatten_iff,filesAt_pushFile]
  constructor
  · rintro ⟨i,hi⟩
    split at hi
    · rcases mem_append.mp hi with hi | hi
      · exact .inl ⟨i,hi⟩
      · exact .inr (mem_singleton.mp hi)
    · exact .inl ⟨i,hi⟩
  · rintro (⟨i,hi⟩ | rfl)
    · refine ⟨i,?_⟩
      split
      · exact mem_append_left _ hi
      · exact hi
    · exact ⟨level,by simp⟩

end Listing

lemma tablePath_ne_sidecarPath (db : Bytes) (p : TablePath) (path : Bytes) :
    tablePath db p ≠ sidecarPath path := by
  intro h
  have hlast := congrArg getLast? h
  rw [tablePath,sidecarPath,getLast?_append_of_ne_nil _ (by simp [ascii]),
    getLast?_append_of_ne_nil _ (by simp [ascii])] at hlast
  exact absurd hlast (by decide)

lemma sidecarPath_injective : Function.Injective sidecarPath := fun _ _ h => append_cancel_right h

namespace Store
variable {codec : Codec} {s : Store} {faults : WriteFaults}

/-- The MANIFEST consists of complete records, the number of the next file is new and a record
of its path can be replayed. -/
structure Sound (s : Store) : Prop where
  opened : s.manifest.opened = true
  whole : ∃ edits : List (Edit Bytes), (∀ e ∈ edits, e.Fits) ∧ s.manifest.content = edits.flatMap manifestRecord
  fresh : ∀ m ∈ s.listed, ∃ dir p, m.path = tablePath dir p ∧ p.number<s.nextFileNumber
  number : s.nextFileNumber<2^64
  pathLength : 17+s.flushPath.length≤2^24

/-- There is something for the flush to give up. -/
def Discards (s : Store) (flushing : MemTableRef) (wals : List ℕ) : Prop :=
  (∃ m ∈ s.immutableList, m.id = flushing.id) ∨ ∃ n ∈ wals, n ∈ s.wals.names

lemma eraseP_ne_self {m : MemTableRef} {ms : List MemTableRef} :
    ms.eraseP (fun x => x.id = m.id) ≠ ms ↔ ∃ x ∈ ms, x.id = m.id := by
  constructor
  · intro h
    by_contra hnone
    apply h
    apply eraseP_of_forall_not
    intro x hx
    simpa using fun hid => hnone ⟨x,hx,hid⟩
  · rintro ⟨x,hx,hid⟩ hself
    have hlen := length_eraseP_of_mem hx (p := fun x => decide (x.id = m.id)) (by simpa using hid)
    rw [hself] at hlen
    have := length_pos_of_mem hx
    omega

lemma foldl_unlink_ne_self {wals : List ℕ} {d : Directory ℕ Bytes} :
    wals.foldl unlink d ≠ d ↔ ∃ n ∈ wals, n ∈ d.names := by
  rw [foldl_unlink,ne_eq,filter_eq_self]
  simp only [decide_eq_true_eq,not_forall,not_not,names,mem_map]
  constructor
  · rintro ⟨f,hf,hn⟩
    exact ⟨f.1,hn,f,hf,rfl⟩
  · rintro ⟨n,hn,f,hf,rfl⟩
    exact ⟨f,hf,hn⟩

lemma discards_iff (s : Store) (faults : WriteFaults) (flushing : MemTableRef) (wals : List ℕ) :
    (s.flushOne codec faults flushing wals).immutableList ≠ s.immutableList ∨
      (s.flushOne codec faults flushing wals).wals ≠ s.wals ↔ s.Discards flushing wals := by
  rw [Discards,← eraseP_ne_self,← foldl_unlink_ne_self,flushOne]
  split <;> rfl

lemma readable_flushOne {flushing : MemTableRef} {wals : List ℕ} (h : flushing.table.isEmpty = false) (e : Entry) :
    (s.flushOne codec faults flushing wals).Readable codec e ↔
      (s.writeLevel0 codec faults (flushing.table.chain.map bytes)).Readable codec e := by
  rw [flushOne,if_neg (by simp [h])]
  rfl

def flushEdit (s : Store) : Edit Bytes := .add 0 s.flushPath s.nextFileNumber

lemma Sound.fits_flushEdit (h : s.Sound) : s.flushEdit.Fits := ⟨by norm_num,h.number,h.pathLength⟩

lemma Sound.manifest_writeLevel0 (h : s.Sound) (es : List KeyValue) :
    (s.writeLevel0 codec faults es).manifest =
      (writeRecordToFd (s.facing faults.manifestWrites).manifest s.flushEdit).2 := by
  have hnumber : fileNumberOf s.flushPath = some s.nextFileNumber := fileNumberOf_tablePath s.dbPath h.number
  simp only [writeLevel0,addLevelFile,hnumber,Option.getD_some,flushEdit]

lemma Sound.listed_writeLevel0 (h : s.Sound) (es : List KeyValue) {m : FileMeta Bytes} (hm : m ∈ s.listed) :
    m ∈ (s.writeLevel0 codec faults es).listed := by
  obtain ⟨edits,hfits,hwhole⟩ := h.whole
  obtain ⟨n,hn⟩ := content_writeRecordToFd (s.facing faults.manifestWrites).manifest s.flushEdit
  have hcontent : (s.facing faults.manifestWrites).manifest.content = edits.flatMap manifestRecord := hwhole
  have hbefore := manifestEdits_records hfits manifestFraming.read_nil
  rw [append_nil] at hbefore
  rw [listed,hwhole,manifestLevels,hbefore] at hm
  rw [listed,h.manifest_writeLevel0,hn,hcontent,manifestLevels]
  rcases manifestEdits_cut hfits h.fits_flushEdit n with hcut | hcut
  · rwa [hcut]
  · rw [hcut,replayRecords_append]
    exact mem_flatten_pushFile.mpr (.inl hm)

lemma files_writeLevel0 (es : List KeyValue) : (s.writeLevel0 codec faults es).files =
    s.tableFiles faults s.flushPath es (s.flushBuilder codec faults es).file.content := rfl

lemma get_tableFiles (path : Bytes) (added : List KeyValue) (content other : Bytes) :
    (s.tableFiles faults path added content).get other =
      if faults.sidecarOpened ∧ other = sidecarPath path then
        some (faults.sidecarWrite.written (bloomOf added).persist)
      else if faults.opened ∧ other = path then some content
      else s.files.get other := by
  rw [tableFiles]
  split <;> rename_i hside <;> split <;> rename_i hopen <;>
    simp [get_set,hside,hopen]

lemma Sound.get_writeLevel0 (h : s.Sound) (codec : Codec) (faults : WriteFaults) (es : List KeyValue)
    {m : FileMeta Bytes} (hm : m ∈ s.listed) :
    (s.writeLevel0 codec faults es).files.get m.path = s.files.get m.path ∧
      (s.writeLevel0 codec faults es).files.get (sidecarPath m.path) = s.files.get (sidecarPath m.path) := by
  obtain ⟨dir,p,hpath,hp⟩ := h.fresh m hm
  have hne : m.path ≠ s.flushPath := by
    intro he
    have hsame := (tablePath_inj.mp (hpath.symm.trans he)).2
    rw [hsame] at hp
    exact lt_irrefl _ hp
  have hside : m.path ≠ sidecarPath s.flushPath := by
    rw [hpath]
    exact tablePath_ne_sidecarPath dir p _
  have htable : sidecarPath m.path ≠ s.flushPath := (tablePath_ne_sidecarPath s.dbPath _ _).symm
  have hboth : sidecarPath m.path ≠ sidecarPath s.flushPath := fun he => hne (sidecarPath_injective he)
  rw [files_writeLevel0,get_tableFiles,get_tableFiles]
  simp [hne,hside,htable,hboth]

variable {e : Entry}

/-- A flush hides nothing that could be read before, whatever its calls do. -/
theorem Sound.readable_writeLevel0 (h : s.Sound) (es : List KeyValue) (he : s.Readable codec e) :
    (s.writeLevel0 codec faults es).Readable codec e := by
  obtain ⟨m,hm,hentry,hfilter⟩ := he
  obtain ⟨hfile,hside⟩ := h.get_writeLevel0 codec faults es hm
  refine ⟨m,h.listed_writeLevel0 es hm,?_,?_⟩
  · rwa [entriesAt,hfile]
  · rwa [FilterPasses,hside]

/-- Every call that opens or writes the table or the MANIFEST succeeds. -/
structure AllWritten (faults : WriteFaults) : Prop where
  opened : faults.opened = true
  writes : ∀ o ∈ faults.writes, o = .full
  manifestWrites : ∀ o ∈ faults.manifestWrites, o = .full

/-- So do the calls for the filter, or there is none, and no old one under its name. -/
structure Succeeds (s : Store) (faults : WriteFaults) : Prop extends AllWritten faults where
  sidecar : if faults.sidecarOpened then faults.sidecarWrite = .full
    else s.files.get (sidecarPath s.flushPath) = none

lemma Sound.mem_listed_of_succeeds (h : s.Sound) (hf : s.Succeeds faults) (es : List KeyValue) :
    ⟨s.flushPath,s.nextFileNumber⟩ ∈ (s.writeLevel0 codec faults es).listed := by
  obtain ⟨edits,hfits,hwhole⟩ := h.whole
  have hhealthy : (s.facing faults.manifestWrites).manifest.Healthy := ⟨h.opened,hf.manifestWrites⟩
  have hcontent : (s.facing faults.manifestWrites).manifest.content = edits.flatMap manifestRecord := hwhole
  have hall : ∀ e ∈ edits ++ [s.flushEdit], e.Fits := by
    intro e he
    rcases mem_append.mp he with he | he
    · exact hfits e he
    · rw [mem_singleton.mp he]
      exact h.fits_flushEdit
  have hread := manifestEdits_records hall manifestFraming.read_nil
  rw [append_nil,flatMap_append,flatMap_singleton] at hread
  rw [listed,h.manifest_writeLevel0,(writeRecordToFd_healthy hhealthy _).2.1,hcontent,manifestLevels,hread,
    replayRecords_append]
  exact mem_flatten_pushFile.mpr (.inr rfl)

lemma filterPasses_of_succeeds (hf : s.Succeeds faults) {es : List KeyValue} {e : KeyValue} (he : e ∈ es) :
    (s.writeLevel0 codec faults es).FilterPasses s.flushPath (internalKeyUserKey e.1) := by
  intro content hcontent stack hstack
  have hside := hf.sidecar
  have hne : sidecarPath s.flushPath ≠ s.flushPath := (tablePath_ne_sidecarPath s.dbPath _ _).symm
  rw [files_writeLevel0,get_tableFiles] at hcontent
  split at hside
  · rename_i hopened
    rw [if_pos ⟨hopened,rfl⟩,hside] at hcontent
    cases hcontent
    exact mightContain_bloomOf he hstack
  · rename_i hopened
    simp [hopened,hne,hside] at hcontent

/-- Where every call succeeds, the new table has every entry. -/
theorem Sound.readable_of_succeeds (h : s.Sound) (hf : s.Succeeds faults) {es : List Entry}
    (hfit : totalSize (es.map bytes)<2^32) (he : e ∈ es) :
    (s.writeLevel0 codec faults (es.map bytes)).Readable codec e := by
  have hmem := mem_map_of_mem he (f := bytes)
  have hne : s.flushPath ≠ sidecarPath s.flushPath := tablePath_ne_sidecarPath s.dbPath _ _
  refine ⟨_,h.mem_listed_of_succeeds hf _,?_,?_⟩
  · rw [entriesAt,files_writeLevel0,get_tableFiles,if_neg (by simp [hne]),if_pos ⟨hf.opened,rfl⟩]
    rw [Option.bind_some,flushBuilder,hf.opened,tableEntries_build s.blockSize s.compression hf.writes hfit]
    exact hmem
  · have hpass := @filterPasses_of_succeeds codec s faults hf _ _ hmem
    rwa [bytes,internalKeyUserKey_encode] at hpass

/-- Nothing can be opened, and the first call to the MANIFEST fails. -/
def allFail : WriteFaults := ⟨false,[],false,.error,[.error]⟩

lemma readable_allFail (h : s.Sound) {es : List KeyValue}
    (he : (s.writeLevel0 codec allFail es).Readable codec e) : s.Readable codec e := by
  have hmanifest : (s.writeLevel0 codec allFail es).manifest.content = s.manifest.content := by
    rw [h.manifest_writeLevel0]
    simp [writeRecordToFd,facing,allFail,OutFile.write,h.opened,WriteOutcome.ret,WriteOutcome.written]
  have hfiles : (s.writeLevel0 codec allFail es).files = s.files := by
    rfl
  simpa only [Readable,listed,entriesAt,FilterPasses,hmanifest,hfiles] using he

/-- A flush is safe against every failure only if it has nothing to give up or nothing to
save. Otherwise all its calls have to succeed. -/
theorem keepsOnlyCopy_iff (codec : Codec) (h : s.Sound) (flushing : MemTableRef) (wals : List ℕ) :
    ((∀ faults, s.KeepsOnlyCopy codec faults flushing wals) ↔
        (s.Discards flushing wals → ∀ e ∈ flushing.table.chain, s.Readable codec e)) ∧
      (totalSize (flushing.table.chain.map bytes)<2^32 → ∀ faults, s.Succeeds faults →
        s.KeepsOnlyCopy codec faults flushing wals) := by
  cases hempty : flushing.table.isEmpty with
  | true =>
    have hnone : ∀ e, e ∉ flushing.table.chain := by
      intro e he
      rw [isEmpty_iff.mp hempty] at he
      simp at he
    exact ⟨⟨fun _ _ e he => (hnone e he).elim,fun _ _ _ e he => (hnone e he).elim⟩,
      fun _ _ _ _ e he => (hnone e he).elim⟩
  | false =>
    refine ⟨⟨?_,?_⟩,?_⟩
    · intro hkeeps hdiscards e he
      have hread := hkeeps allFail ((discards_iff s allFail flushing wals).mpr hdiscards) e he
      exact readable_allFail h ((readable_flushOne hempty e).mp hread)
    · intro hread faults hgiven e he
      apply (readable_flushOne hempty e).mpr
      exact h.readable_writeLevel0 _ (hread ((discards_iff s faults flushing wals).mp hgiven) e he)
    · intro hfit faults hf _ e he
      exact (readable_flushOne hempty e).mpr (h.readable_of_succeeds hf hfit he)

/-- A codec that puts a byte before what it is given. -/
def markingCodec : Codec where
  snappyCompress input := 0::input
  snappyUncompress input := input.tail?
  zstdCompress input := .ok (0::input)
  zstdDecompress input _ := .ok input.tail
  snappy_lossless _ := rfl
  snappy_nonempty _ := cons_ne_nil _ _
  zstd_lossless _ _ h := by cases h; rfl
  zstd_nonempty _ h := by cases h

def frozenTable : MemTableRef := ⟨0,MemTable.empty.put [107] [118] 1 false⟩

def frozenStore : Store where
  dbPath := ascii ['d','b']
  blockSize := 4096
  compression := .snappy
  maxLevel := 7
  immutableList := [frozenTable]
  levels := []
  nextFileNumber := 2
  files := []
  manifest := ⟨true,[],[]⟩
  wals := [(1,[])]

lemma sound_frozenStore : frozenStore.Sound where
  opened := rfl
  whole := ⟨[],by simp,rfl⟩
  fresh := by
    have hnone : frozenStore.listed = [] := by decide +kernel
    simp [hnone]
  number := by decide
  pathLength := by decide +kernel

theorem keepsOnlyCopy_of_calls : frozenStore.Sound ∧
    frozenStore.KeepsOnlyCopy markingCodec ⟨true,[],true,.full,[]⟩ frozenTable [1] := by
  refine ⟨sound_frozenStore,?_⟩
  refine (keepsOnlyCopy_iff markingCodec sound_frozenStore frozenTable [1]).2 (by decide +kernel) _ ?_
  exact ⟨⟨rfl,by simp,by simp⟩,by simp⟩

/-- Only the write of the footer fails. -/
theorem not_keepsOnlyCopy_without_footer :
    ¬ frozenStore.KeepsOnlyCopy markingCodec ⟨true,[.full,.full,.full,.full,.error],true,.full,[]⟩
      frozenTable [1] := by
  intro h
  have hread := h (.inr (by decide +kernel)) ⟨⟨[107],1,.value⟩,[118]⟩ (by decide +kernel)
  obtain ⟨m,hm,hentry,-⟩ := hread
  revert m
  decide +kernel

end Store
end TitanKV.Minikv
