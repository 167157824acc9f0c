import TitanKV.Minikv.Compaction
import TitanKV.Minikv.FlushDurability
import TitanKV.Minikv.SSTableFaults

/-! `mergeLevelFiles` over the bytes of its files, for calls that may fail, and what it does
when a source cannot be read. The block cache is off. -/
namespace TitanKV.Minikv
open List

/-- What the calls of a reader do: `open`, then the `read`s. -/
structure ReadFaults where
  opened : Bool
  reads : List ReadOutcome
  deriving DecidableEq, Repr

/-- The order of both calls of `std::sort`, as a relation that also holds of equal keys. -/
def KeyLe (a b : KeyValue) : Prop := (internalKeyCompare a.1 b.1).isLE = true

instance : DecidableRel KeyLe := fun _ _ => inferInstanceAs (Decidable (_ = true))

def sortByKey (es : List KeyValue) : List KeyValue := es.insertionSort KeyLe

@[simp] theorem mem_sortByKey {es : List KeyValue} {e : KeyValue} : e ∈ sortByKey es ↔ e ∈ es :=
  mem_insertionSort KeyLe

def mergeEntries (all : List KeyValue) : List KeyValue :=
  keepNewest (fun e => internalKeyUserKey e.1) (fun e => internalKeyType e.1 = ValueType.deletion.code) []
    (sortByKey all)

/-- The loop of `mergeLevelFiles` over the builder, which ends at the first failure: its status,
the builder and what was added. -/
def SSTableBuilder.addWhileOk (codec : Codec) (b : SSTableBuilder) :
    List KeyValue → Status × SSTableBuilder × List KeyValue
  | [] => (.Ok,b,[])
  | e::es =>
    let added := b.add codec e.1 e.2
    if added.1.ok then
      let rest := added.2.addWhileOk codec es
      (rest.1,rest.2.1,e::rest.2.2)
    else (added.1,added.2,[e])

namespace Store
variable (codec : Codec) (s : Store) (reads : Bytes → ReadFaults)

def openSource (path : Bytes) : Option SSTableReader :=
  SSTableReader.openFile (reads path).opened (s.files.get path) (reads path).reads

/-- The loop over the sources: one that cannot be opened is skipped, one that cannot be scanned
ends it. -/
def readSources : List Bytes → Status × List KeyValue
  | [] => (.Ok,[])
  | path::paths =>
    match s.openSource reads path with
    | none => readSources paths
    | some r =>
      let scanned := r.scan codec [] []
      if scanned.1.ok then
        let rest := readSources paths
        (rest.1,sortByKey scanned.2 ++ rest.2)
      else (scanned.1,[])

def unlinkTables (paths : List Bytes) : Store := { s with files := paths.foldl Directory.unlink s.files }

def mergePath (srcLevel : ℕ) : Bytes := tablePath s.dbPath ⟨srcLevel+1,s.nextFileNumber⟩

/-- `mergeLevelFiles` once its sources are read. The builder compresses with its default. After
a failed `add` its destructor still finishes the file, which stays. -/
def mergeInto (faults : WriteFaults) (srcLevel : ℕ) (srcFiles : List Bytes) (all : List KeyValue) :
    Status × Store :=
  let newFile := s.mergePath srcLevel
  let added := (SSTableBuilder.init s.blockSize .snappy faults.opened faults.writes).addWhileOk codec
    (mergeEntries all)
  let finished := added.2.1.finish codec
  let built := { s.facing faults.manifestWrites with
    nextFileNumber := s.nextFileNumber+1
    files := s.tableFiles faults newFile added.2.2 finished.2.file.content }
  if added.1.ok = false then (added.1,built)
  else if finished.1.ok = false then (finished.1,built.unlinkTables [newFile])
  else if (mergeEntries all).isEmpty then
    (.Ok,((built.unlinkTables [newFile]).removeLevelFiles srcLevel srcFiles).unlinkTables srcFiles)
  else
    (.Ok,((built.addLevelFile (srcLevel+1) newFile).removeLevelFiles srcLevel srcFiles).unlinkTables srcFiles)

def mergeLevelFiles (faults : WriteFaults) (srcLevel : ℕ) (srcFiles : List Bytes) : Status × Store :=
  if srcFiles.isEmpty then (.Ok,s)
  else if s.maxLevel<srcLevel+1 then (.Ok,s)
  else
    let source := s.readSources codec reads srcFiles
    if source.1.ok = false then (source.1,s) else s.mergeInto codec faults srcLevel srcFiles source.2

def OpenFails (path : Bytes) : Prop := s.openSource reads path = none

/-- A source that was opened cannot be scanned. -/
def ScanFails (path : Bytes) : Prop := ∃ r, s.openSource reads path = some r ∧ (r.scan codec [] []).1.ok = false

/-- A merge that gets to read its sources fails to read one of them. -/
def ReadFails (srcLevel : ℕ) (srcFiles : List Bytes) : Prop :=
  srcLevel<s.maxLevel ∧ ∃ path ∈ srcFiles, s.OpenFails reads path ∨ s.ScanFails codec reads path

/-- The Version, the MANIFEST and the sources are as they were. -/
structure Untouched (srcFiles : List Bytes) (after : Store) : Prop where
  levels : after.levels = s.levels
  nextFileNumber : after.nextFileNumber = s.nextFileNumber
  manifest : after.manifest.content = s.manifest.content
  sources : ∀ path ∈ srcFiles, after.files.get path = s.files.get path

/-- Every entry of the file is among those that were read. -/
def AllRead (all : List KeyValue) (path : Bytes) : Prop :=
  ∃ content es, s.files.get path = some content ∧ tableEntries codec content = some es ∧ ∀ e ∈ es, e ∈ all

/-- A merge that cannot read a source fails and changes nothing, and one that removes a source
has read them all. -/
def AllOrNothing (faults : WriteFaults) (srcLevel : ℕ) (srcFiles : List Bytes) : Prop :=
  let result := s.mergeLevelFiles codec reads faults srcLevel srcFiles
  (s.ReadFails codec reads srcLevel srcFiles → result.1.ok = false ∧ s.Untouched srcFiles result.2) ∧
    (result.2.levels ≠ s.levels ∨ (∃ path ∈ srcFiles, result.2.files.get path ≠ s.files.get path) →
      ∀ path ∈ srcFiles, s.AllRead codec (s.readSources codec reads srcFiles).2 path)

variable {codec s reads}

lemma not_scanFails_of_none {path : Bytes} (h : s.openSource reads path = none) :
    ¬ s.ScanFails codec reads path := by
  rintro ⟨r,hr,-⟩
  rw [h] at hr
  cases hr

lemma scanFails_iff {path : Bytes} {r : SSTableReader} (h : s.openSource reads path = some r) :
    s.ScanFails codec reads path ↔ (r.scan codec [] []).1.ok = false := by
  constructor
  · rintro ⟨r',hr,hfail⟩
    rw [h] at hr
    cases hr
    exact hfail
  · exact fun hfail => ⟨r,h,hfail⟩

lemma ok_of_not_scanFails {path : Bytes} {r : SSTableReader} (h : s.openSource reads path = some r)
    (hscan : ¬ s.ScanFails codec reads path) : (r.scan codec [] []).1.ok = true := by
  rw [scanFails_iff h] at hscan
  simpa using hscan

lemma ok_readSources_iff {paths : List Bytes} : (s.readSources codec reads paths).1.ok = true ↔
    ∀ path ∈ paths, ¬ s.ScanFails codec reads path := by
  induction paths with
  | nil => simp [readSources]
  | cons path paths ih =>
    rw [forall_mem_cons,readSources]
    cases hopen : s.openSource reads path with
    | none => simp [not_scanFails_of_none hopen,ih]
    | some r =>
      dsimp only
      rw [scanFails_iff hopen]
      split
      · rename_i hok
        simp [hok,ih]
      · rename_i hfail
        simp [hfail]

lemma mem_readSources {paths : List Bytes} (hok : (s.readSources codec reads paths).1.ok = true)
    {path : Bytes} (hpath : path ∈ paths) {r : SSTableReader} (hr : s.openSource reads path = some r)
    {e : KeyValue} (he : e ∈ (r.scan codec [] []).2) : e ∈ (s.readSources codec reads paths).2 := by
  induction paths with
  | nil => simp at hpath
  | cons p paths ih =>
    have hall := ok_readSources_iff.mp hok
    have hrest := ok_readSources_iff.mpr fun q hq => hall q (mem_cons_of_mem p hq)
    rw [readSources]
    cases hopen : s.openSource reads p with
    | none =>
      rcases mem_cons.mp hpath with rfl | hpath
      · rw [hopen] at hr
        cases hr
      · exact ih hrest hpath
    | some r' =>
      have hscan := ok_of_not_scanFails hopen (hall p mem_cons_self)
      dsimp only
      rw [if_pos hscan,mem_append]
      rcases mem_cons.mp hpath with rfl | hpath
      · rw [hopen] at hr
        cases hr
        exact .inl (mem_sortByKey.mpr he)
      · exact .inr (ih hrest hpath)

lemma allRead_of_scanned {paths : List Bytes} (hopen : ∀ path ∈ paths, ¬ s.OpenFails reads path)
    (hscan : ∀ path ∈ paths, ¬ s.ScanFails codec reads path) {path : Bytes} (hpath : path ∈ paths) :
    s.AllRead codec (s.readSources codec reads paths).2 path := by
  obtain ⟨r,hr⟩ := Option.ne_none_iff_exists'.mp (hopen path hpath)
  have hentries := tableEntries_of_scan hr (ok_of_not_scanFails hr (hscan path hpath))
  obtain ⟨content,hcontent,htable⟩ := Option.bind_eq_some_iff.mp hentries
  exact ⟨content,_,hcontent,htable,fun e he => mem_readSources (ok_readSources_iff.mpr hscan) hpath hr he⟩

lemma lt_nextFileNumber_mergeInto (s : Store) (faults : WriteFaults) (srcLevel : ℕ) (srcFiles : List Bytes)
    (all : List KeyValue) :
    s.nextFileNumber<(s.mergeInto codec faults srcLevel srcFiles all).2.nextFileNumber := by
  have hnext := Nat.lt_succ_self s.nextFileNumber
  rw [mergeInto]
  split
  · exact hnext
  · split
    · exact hnext
    · split
      · exact hnext
      · exact Nat.lt_of_lt_of_le hnext (Nat.le_max_left _ _)

lemma mergeLevelFiles_deepest (faults : WriteFaults) {srcLevel : ℕ} (srcFiles : List Bytes)
    (h : s.maxLevel ≤ srcLevel) : s.mergeLevelFiles codec reads faults srcLevel srcFiles = (.Ok,s) := by
  rw [mergeLevelFiles]
  split
  · rfl
  · rw [if_pos (by omega)]

lemma mergeLevelFiles_eq (faults : WriteFaults) {srcLevel : ℕ} {srcFiles : List Bytes} (hne : srcFiles ≠ [])
    (h : srcLevel<s.maxLevel) : s.mergeLevelFiles codec reads faults srcLevel srcFiles =
      if (s.readSources codec reads srcFiles).1.ok = false then ((s.readSources codec reads srcFiles).1,s)
      else s.mergeInto codec faults srcLevel srcFiles (s.readSources codec reads srcFiles).2 := by
  rw [mergeLevelFiles,if_neg (by simpa using hne),if_neg (by omega)]

lemma allOrNothing_of_unchanged {faults : WriteFaults} {srcLevel : ℕ} {srcFiles : List Bytes} {status : Status}
    (h : s.mergeLevelFiles codec reads faults srcLevel srcFiles = (status,s))
    (hstatus : s.ReadFails codec reads srcLevel srcFiles → status.ok = false) :
    s.AllOrNothing codec reads faults srcLevel srcFiles := by
  rw [AllOrNothing,h]
  refine ⟨fun hfails => ⟨hstatus hfails,rfl,rfl,rfl,fun _ _ => rfl⟩,?_⟩
  rintro (hlevels | ⟨path,-,hfile⟩)
  · exact (hlevels rfl).elim
  · exact (hfile rfl).elim

lemma allOrNothing_of_scanFails (faults : WriteFaults) {srcLevel : ℕ} {srcFiles : List Bytes}
    (hlevel : srcLevel<s.maxLevel) (h : ∃ path ∈ srcFiles, s.ScanFails codec reads path) :
    s.AllOrNothing codec reads faults srcLevel srcFiles := by
  obtain ⟨path,hpath,hfails⟩ := h
  have hstatus : (s.readSources codec reads srcFiles).1.ok = false := by
    rw [← Bool.not_eq_true,ok_readSources_iff]
    exact fun hall => hall path hpath hfails
  have hne : srcFiles ≠ [] := ne_nil_of_mem hpath
  refine allOrNothing_of_unchanged ?_ fun _ => hstatus
  rw [mergeLevelFiles_eq faults hne hlevel,if_pos hstatus]

/-- The merge is all or nothing unless it skips a source that it cannot open. -/
theorem allOrNothing_iff (codec : Codec) (s : Store) (reads : Bytes → ReadFaults) (faults : WriteFaults)
    (srcLevel : ℕ) (srcFiles : List Bytes) :
    s.AllOrNothing codec reads faults srcLevel srcFiles ↔
      s.maxLevel ≤ srcLevel ∨ (∀ path ∈ srcFiles, ¬ s.OpenFails reads path) ∨
        ∃ path ∈ srcFiles, s.ScanFails codec reads path := by
  constructor
  · intro h
    by_contra hnone
    obtain ⟨hlevel,hopen,hscan⟩ : srcLevel<s.maxLevel ∧ (∃ path ∈ srcFiles, s.OpenFails reads path) ∧
        ∀ path ∈ srcFiles, ¬ s.ScanFails codec reads path := by
      push Not at hnone
      exact hnone
    obtain ⟨path,hpath,hfails⟩ := hopen
    have hok := ok_readSources_iff.mpr hscan
    have hmerge := @mergeLevelFiles_eq codec s reads faults _ _ (ne_nil_of_mem hpath) hlevel
    rw [if_neg (by simp [hok])] at hmerge
    have hnext := (h.1 ⟨hlevel,path,hpath,.inl hfails⟩).2.nextFileNumber
    rw [hmerge] at hnext
    exact absurd hnext (lt_nextFileNumber_mergeInto s faults srcLevel srcFiles _).ne'
  · intro h
    by_cases hlevel : s.maxLevel ≤ srcLevel
    · refine allOrNothing_of_unchanged (mergeLevelFiles_deepest faults srcFiles hlevel) ?_
      rintro ⟨hlt,-⟩
      omega
    · by_cases hscan : ∃ path ∈ srcFiles, s.ScanFails codec reads path
      · exact allOrNothing_of_scanFails faults (by omega) hscan
      · have hopen := (h.resolve_left hlevel).resolve_right hscan
        have hscan' : ∀ path ∈ srcFiles, ¬ s.ScanFails codec reads path :=
          fun path hpath hfails => hscan ⟨path,hpath,hfails⟩
        refine ⟨?_,fun _ path hpath => allRead_of_scanned hopen hscan' hpath⟩
        rintro ⟨-,path,hpath,hfails⟩
        exact (hfails.elim (hopen path hpath) (hscan' path hpath)).elim

/-- One flushed table, while the process has no descriptor left to open it with. -/
theorem not_allOrNothing_without_descriptors :
    ¬ (frozenStore.flushOne markingCodec ⟨true,[],true,.full,[]⟩ frozenTable [1]).AllOrNothing markingCodec
      (fun _ => ⟨false,[]⟩) ⟨true,[],true,.full,[]⟩ 0 [frozenStore.flushPath] := by
  intro h
  have hopen : ∀ path, OpenFails (frozenStore.flushOne markingCodec ⟨true,[],true,.full,[]⟩ frozenTable [1])
    (fun _ => ⟨false,[]⟩) path := fun _ => rfl
  have hstatus := (h.1 ⟨by decide +kernel,_,mem_cons_self,.inl (hopen _)⟩).1
  revert hstatus
  decide +kernel

end Store
end TitanKV.Minikv
