import TitanKV.Minikv.CompactionFaults
import TitanKV.Minikv.ReadFailures

/-! The open file descriptors of the process during reads and merges. -/
namespace TitanKV.Minikv

abbrev Descriptors := Finset ℕ

def lowestFree (fds : Descriptors) : ℕ := ((List.range (fds.card+1)).find? fun fd => fd ∉ fds).getD 0

variable (fds : Descriptors)

lemma lowestFree_notMem : lowestFree fds ∉ fds := by
  rw [lowestFree]
  cases hfind : (List.range (fds.card+1)).find? fun fd => fd ∉ fds with
  | some fd => simpa using List.find?_some hfind
  | none =>
    have hall : Finset.range (fds.card+1) ⊆ fds := by
      intro fd hfd
      have hmem := List.find?_eq_none.mp hfind fd (List.mem_range.mpr (Finset.mem_range.mp hfd))
      simpa using hmem
    have hcard := Finset.card_le_card hall
    rw [Finset.card_range] at hcard
    omega

def openFd (succeeds : Bool) (fds : Descriptors) : Option ℕ × Descriptors :=
  if succeeds then (some (lowestFree fds),insert (lowestFree fds) fds) else (none,fds)

def closeFd (fd : ℕ) (fds : Descriptors) : Descriptors := fds.erase fd

/-- A file stream closes its file when it goes out of scope. -/
def stream (succeeds : Bool) (fds : Descriptors) : Descriptors :=
  match openFd succeeds fds with
  | (none,fds) => fds
  | (some fd,fds) => closeFd fd fds

/-- `SSTableReader` declares no destructor, so its `fd_` is not closed. -/
def destroyReader (fds : Descriptors) : Descriptors := fds

@[simp] lemma openFd_false : openFd false fds = (none,fds) := rfl

@[simp] lemma openFd_true : openFd true fds = (some (lowestFree fds),insert (lowestFree fds) fds) := rfl

@[simp] lemma stream_eq (succeeds : Bool) (fds : Descriptors) : stream succeeds fds = fds := by
  rw [stream]
  cases succeeds with
  | false => rfl
  | true =>
    exact Finset.erase_insert (lowestFree_notMem fds)

namespace Store
variable (codec : Codec) (stack : Bytes) (s : Store) (reads : Bytes → ReadFaults)

/-- `SSTableReader::open`. Past its first call, every return destroys the reader or hands it over. -/
def openTable (path : Bytes) (fds : Descriptors) : Option SSTableReader × Descriptors :=
  match openFd ((reads path).opened && (s.files.get path).isSome) fds with
  | (none,fds) => (none,fds)
  | (some _,fds) =>
    match SSTableReader.openFile true (s.files.get path) (reads path).reads with
    | none => (none,destroyReader fds)
    | some r => (some r,stream (s.files.get (sidecarPath path)).isSome fds)

def searchTables (key : Bytes) : List Bytes → Descriptors → Option Bytes × Descriptors
  | [],fds => (none,fds)
  | path::paths,fds =>
    match s.openTable reads path fds with
    | (none,fds) => searchTables key paths fds
    | (some r,fds) =>
      match r.get codec (s.bloomAt stack path) (fun _ => false) key with
      | some v => (some v,destroyReader fds)
      | none => searchTables key paths (destroyReader fds)

def getTracked (mem : MemTableRef) (seq : ℕ) (key : Bytes) (fds : Descriptors) : Except Status Bytes × Descriptors :=
  match s.memoryGet mem seq key with
  | some v => (.ok v,fds)
  | none =>
    match s.searchTables codec stack reads key s.searchOrder fds with
    | (some v,fds) => (.ok v,fds)
    | (none,fds) => (.error .NotFound,fds)

def openChildren : List Bytes → Descriptors → List SSTableReader × Descriptors
  | [],fds => ([],fds)
  | path::paths,fds =>
    match s.openTable reads path fds with
    | (none,fds) => openChildren paths fds
    | (some r,fds) => (r::(openChildren paths fds).1,(openChildren paths fds).2)

def iterateTracked (fds : Descriptors) : Descriptors :=
  let opened := s.openChildren reads s.searchOrder fds
  opened.1.foldl (fun fds _ => destroyReader fds) opened.2

def readSourcesTracked : List Bytes → Descriptors → (Status × List KeyValue) × Descriptors
  | [],fds => ((.Ok,[]),fds)
  | path::paths,fds =>
    match s.openTable reads path fds with
    | (none,fds) => readSourcesTracked paths fds
    | (some r,fds) =>
      let scanned := r.scan codec [] []
      if scanned.1.ok then
        let rest := readSourcesTracked paths (destroyReader fds)
        ((rest.1.1,sortByKey scanned.2 ++ rest.1.2),rest.2)
      else ((scanned.1,[]),destroyReader fds)

/-- The builder's file is open from its constructor to its destructor; `finish` writes the filter to a stream. -/
def builderTracked (faults : WriteFaults) (fds : Descriptors) : Descriptors :=
  match openFd faults.opened fds with
  | (none,fds) => stream faults.sidecarOpened fds
  | (some fd,fds) => closeFd fd (stream faults.sidecarOpened fds)

def mergeTracked (faults : WriteFaults) (srcLevel : ℕ) (srcFiles : List Bytes) (fds : Descriptors) :
    (Status × Store) × Descriptors :=
  if srcFiles.isEmpty then ((.Ok,s),fds)
  else if s.maxLevel<srcLevel+1 then ((.Ok,s),fds)
  else
    let source := s.readSourcesTracked codec reads srcFiles fds
    if source.1.1.ok = false then ((source.1.1,s),source.2)
    else (s.mergeInto codec faults srcLevel srcFiles source.1.2,builderTracked faults source.2)

/-- The file is there and `::open` returns a descriptor for it. -/
def Opens (path : Bytes) : Prop := (reads path).opened = true ∧ (s.files.get path).isSome = true

instance (path : Bytes) : Decidable (s.Opens reads path) := inferInstanceAs (Decidable (_ ∧ _))

variable {codec stack s reads}

lemma openTable_of_not_opens {path : Bytes} (h : ¬s.Opens reads path) (fds : Descriptors) :
    s.openTable reads path fds = (none,fds) := by
  have hfail : ((reads path).opened && (s.files.get path).isSome) = false := by
    rw [← Bool.not_eq_true,Bool.and_eq_true]
    exact h
  rw [openTable,hfail,openFd_false]

lemma openTable_of_opens {path : Bytes} (h : s.Opens reads path) (fds : Descriptors) :
    s.openTable reads path fds = (s.openSource reads path,insert (lowestFree fds) fds) := by
  have hboth : ((reads path).opened && (s.files.get path).isSome) = true := Bool.and_eq_true_iff.mpr h
  rw [openTable,hboth,openFd_true,openSource,h.1]
  dsimp only
  split
  · rename_i hnone
    rw [hnone]
    rfl
  · rename_i r hsome
    rw [hsome,stream_eq]

variable (path : Bytes)

lemma openTable_fst (fds : Descriptors) : (s.openTable reads path fds).1 = s.openSource reads path := by
  by_cases h : s.Opens reads path
  · rw [openTable_of_opens h]
  · rw [openTable_of_not_opens h,openSource]
    cases hopened : (reads path).opened with
    | false => rfl
    | true =>
      cases hcontent : s.files.get path with
      | none => rfl
      | some content => exact absurd ⟨hopened,by rw [hcontent]; rfl⟩ h

lemma subset_openTable (fds : Descriptors) : fds ⊆ (s.openTable reads path fds).2 := by
  by_cases h : s.Opens reads path
  · rw [openTable_of_opens h]
    exact Finset.subset_insert _ fds
  · rw [openTable_of_not_opens h]

lemma openTable_snd_eq_iff (fds : Descriptors) :
    (s.openTable reads path fds).2 = fds ↔ ¬s.Opens reads path := by
  constructor
  · intro heq h
    rw [openTable_of_opens h] at heq
    exact lowestFree_notMem fds (Finset.insert_eq_self.mp heq)
  · intro h
    rw [openTable_of_not_opens h]

/-- A loop that opens one table after another and may stop at a reader. -/
structure Opening (s : Store) (reads : Bytes → ReadFaults) (loop : List Bytes → Descriptors → Descriptors) :
    Prop where
  nil : ∀ fds, loop [] fds = fds
  cons : ∀ path paths fds, loop (path::paths) fds = loop paths (s.openTable reads path fds).2 ∨
    (s.openTable reads path fds).1 ≠ none ∧ loop (path::paths) fds = (s.openTable reads path fds).2

section Loop
variable {loop : List Bytes → Descriptors → Descriptors} (h : Opening s reads loop)
include h

lemma Opening.subset (paths : List Bytes) (fds : Descriptors) : fds ⊆ loop paths fds := by
  induction paths generalizing fds with
  | nil => rw [h.nil]
  | cons path paths ih =>
    have hopen : fds ⊆ (s.openTable reads path fds).2 := subset_openTable path fds
    rcases h.cons path paths fds with heq | ⟨-,heq⟩
    · rw [heq]
      exact hopen.trans (ih _)
    · rwa [heq]

/-- The first table that opens leaves a descriptor behind. -/
theorem Opening.eq_iff (paths : List Bytes) (fds : Descriptors) :
    loop paths fds = fds ↔ ∀ path ∈ paths, ¬s.Opens reads path := by
  induction paths with
  | nil => simp [h.nil]
  | cons path paths ih =>
    by_cases hopens : s.Opens reads path
    · refine iff_of_false ?_ fun hall => hall path List.mem_cons_self hopens
      intro hsame
      have hsubset : (s.openTable reads path fds).2 ⊆ loop (path::paths) fds := by
        rcases h.cons path paths fds with heq | ⟨-,heq⟩
        · rw [heq]
          exact h.subset paths _
        · rw [heq]
      rw [hsame] at hsubset
      exact (openTable_snd_eq_iff path fds).mp (hsubset.antisymm (subset_openTable path fds)) hopens
    · have hgo : loop (path::paths) fds = loop paths fds := by
        rcases h.cons path paths fds with heq | ⟨hsome,-⟩
        · rw [heq,openTable_of_not_opens hopens]
        · rw [openTable_of_not_opens hopens] at hsome
          exact absurd rfl hsome
      rw [hgo,ih,List.forall_mem_cons,and_iff_right hopens]

end Loop

lemma opening_searchTables (key : Bytes) :
    Opening s reads fun paths fds => (s.searchTables codec stack reads key paths fds).2 := by
  refine ⟨fun _ => rfl,?_⟩
  intro path paths fds
  rw [searchTables]
  split
  · rename_i heq
    rw [heq]
    exact .inl rfl
  · rename_i heq
    rw [heq]
    split
    · exact .inr ⟨nofun,rfl⟩
    · exact .inl rfl

lemma opening_openChildren : Opening s reads fun paths fds => (s.openChildren reads paths fds).2 := by
  refine ⟨fun _ => rfl,?_⟩
  intro path paths fds
  rw [openChildren]
  split
  all_goals
    rename_i heq
    rw [heq]
    exact .inl rfl

lemma opening_readSourcesTracked :
    Opening s reads fun paths fds => (s.readSourcesTracked codec reads paths fds).2 := by
  refine ⟨fun _ => rfl,?_⟩
  intro path paths fds
  rw [readSourcesTracked]
  split
  · rename_i heq
    rw [heq]
    exact .inl rfl
  · rename_i heq
    rw [heq]
    dsimp only
    split
    · exact .inl rfl
    · exact .inr ⟨nofun,rfl⟩

lemma readSourcesTracked_fst (paths : List Bytes) (fds : Descriptors) :
    (s.readSourcesTracked codec reads paths fds).1 = s.readSources codec reads paths := by
  induction paths generalizing fds with
  | nil => rfl
  | cons path paths ih =>
    have hopen : (s.openTable reads path fds).1 = s.openSource reads path := openTable_fst path fds
    rw [readSourcesTracked,readSources]
    split
    · rename_i heq
      rw [heq] at hopen
      rw [← hopen]
      exact ih _
    · rename_i r fds' heq
      rw [heq] at hopen
      rw [← hopen]
      dsimp only
      split
      · rw [ih]
      · rfl

variable (faults : WriteFaults)

lemma mergeTracked_fst (srcLevel : ℕ) (srcFiles : List Bytes) (fds : Descriptors) :
    (s.mergeTracked codec reads faults srcLevel srcFiles fds).1 = s.mergeLevelFiles codec reads faults srcLevel
      srcFiles := by
  rw [mergeTracked,mergeLevelFiles]
  split
  · rfl
  · split
    · rfl
    · dsimp only
      rw [readSourcesTracked_fst]
      split <;> rfl

@[simp] lemma builderTracked_eq (fds : Descriptors) : builderTracked faults fds = fds := by
  rw [builderTracked]
  cases faults.opened with
  | false => exact stream_eq _ fds
  | true =>
    rw [openFd_true]
    dsimp only
    rw [stream_eq]
    exact Finset.erase_insert (lowestFree_notMem fds)

lemma getTracked_snd_eq_iff (mem : MemTableRef) (seq : ℕ) (key : Bytes) (fds : Descriptors) :
    (s.getTracked codec stack reads mem seq key fds).2 = fds ↔
      (s.memoryGet mem seq key).isSome = true ∨ ∀ path ∈ s.searchOrder, ¬s.Opens reads path := by
  rw [getTracked]
  cases s.memoryGet mem seq key with
  | some v => simp
  | none =>
    have hsearch : (s.searchTables codec stack reads key s.searchOrder fds).2 = fds ↔
        ∀ path ∈ s.searchOrder, ¬s.Opens reads path := (opening_searchTables key).eq_iff s.searchOrder fds
    rw [← hsearch]
    dsimp only
    split
    all_goals
      rename_i heq
      rw [heq]
      simp

lemma iterateTracked_eq_iff (fds : Descriptors) :
    s.iterateTracked reads fds = fds ↔ ∀ path ∈ s.searchOrder, ¬s.Opens reads path := by
  have hdestroyed : ∀ (readers : List SSTableReader) (fds : Descriptors),
      readers.foldl (fun fds _ => destroyReader fds) fds = fds := by
    intro readers fds
    induction readers with
    | nil => rfl
    | cons r readers ih => exact ih
  rw [iterateTracked,hdestroyed]
  exact opening_openChildren.eq_iff s.searchOrder fds

lemma mergeTracked_snd_eq_iff (srcLevel : ℕ) (srcFiles : List Bytes) (fds : Descriptors) :
    (s.mergeTracked codec reads faults srcLevel srcFiles fds).2 = fds ↔
      s.maxLevel<srcLevel+1 ∨ ∀ path ∈ srcFiles, ¬s.Opens reads path := by
  have hsources : (s.readSourcesTracked codec reads srcFiles fds).2 = fds ↔
      ∀ path ∈ srcFiles, ¬s.Opens reads path := opening_readSourcesTracked.eq_iff srcFiles fds
  rw [mergeTracked]
  split
  · rename_i hempty
    rw [List.isEmpty_iff.mp hempty]
    simp
  · split
    · rename_i hdeep
      simp [hdeep]
    · rename_i hdeep
      rw [← hsources,or_iff_right hdeep]
      dsimp only
      split
      · rfl
      · rw [builderTracked_eq]

/-- An operation keeps the set of open descriptors if and only if it opens no SSTable: no way out of `open` closes
    the descriptor, and neither does the end of the reader. -/
theorem keepsDescriptors_iff (codec : Codec) (stack : Bytes) (s : Store) (reads : Bytes → ReadFaults)
    (faults : WriteFaults) (mem : MemTableRef) (seq : ℕ) (key path : Bytes) (srcLevel : ℕ) (srcFiles : List Bytes)
    (fds : Descriptors) :
    ((s.openTable reads path fds).2 = fds ↔ ¬s.Opens reads path) ∧
    ((s.getTracked codec stack reads mem seq key fds).2 = fds ↔
      (s.memoryGet mem seq key).isSome = true ∨ ∀ path ∈ s.searchOrder, ¬s.Opens reads path) ∧
    (s.iterateTracked reads fds = fds ↔ ∀ path ∈ s.searchOrder, ¬s.Opens reads path) ∧
    ((s.mergeTracked codec reads faults srcLevel srcFiles fds).2 = fds ↔
      s.maxLevel<srcLevel+1 ∨ ∀ path ∈ srcFiles, ¬s.Opens reads path) :=
  ⟨openTable_snd_eq_iff path fds,getTracked_snd_eq_iff mem seq key fds,iterateTracked_eq_iff fds,
    mergeTracked_snd_eq_iff faults srcLevel srcFiles fds⟩

lemma getTracked_of_singleton {mem : MemTableRef} {seq : ℕ} {key path v : Bytes}
    (hmemory : s.memoryGet mem seq key = none) (horder : s.searchOrder = [path]) (hopens : s.Opens reads path)
    (hreads : (reads path).reads = []) (htable : s.tableGet codec stack .none key path = some v)
    (fds : Descriptors) :
    s.getTracked codec stack reads mem seq key fds = (.ok v,insert (lowestFree fds) fds) := by
  obtain ⟨r,hr,hget⟩ := Option.bind_eq_some_iff.mp htable
  have hsource : s.openSource reads path = some r := by
    rw [openSource,hopens.1,hreads]
    exact hr
  have hsearch : s.searchTables codec stack reads key [path] fds = (some v,insert (lowestFree fds) fds) := by
    rw [searchTables,openTable_of_opens hopens,hsource]
    dsimp only
    rw [show r.get codec (s.bloomAt stack path) (fun _ => false) key = some v from hget]
    rfl
  rw [getTracked,hmemory,horder,hsearch]

/-- A key is read from the only SSTable of a database, and the descriptor of the table stays open. -/
theorem not_keepsDescriptors_of_get :
    let s := frozenStore.flushOne markingCodec ⟨true,[],true,.full,[]⟩ frozenTable [1]
    (s.getTracked markingCodec (List.replicate 16 0) (fun _ => ⟨true,[]⟩) ⟨1,.empty⟩ 1 [107] {0,1,2}).1 = .ok [118] ∧
      (s.getTracked markingCodec (List.replicate 16 0) (fun _ => ⟨true,[]⟩) ⟨1,.empty⟩ 1 [107] {0,1,2}).2 =
        {0,1,2,3} := by
  intro s
  have hget : s.getTracked markingCodec (List.replicate 16 0) (fun _ => ⟨true,[]⟩) ⟨1,.empty⟩ 1 [107] {0,1,2} =
      (.ok [118],insert (lowestFree {0,1,2}) {0,1,2}) :=
    getTracked_of_singleton memoryGet_flushedStore searchOrder_flushedStore ⟨rfl,by decide +kernel⟩ rfl
      tableGet_flushedStore {0,1,2}
  rw [hget]
  exact ⟨rfl,by decide⟩

end Store
end TitanKV.Minikv
