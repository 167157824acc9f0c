import TitanKV.Minikv.FlushDurability

/-! `DBImpl::get` over the bytes of the files while some SSTables cannot be opened and some blocks
cannot be read. -/
namespace TitanKV.Minikv
open List

/-- The SSTables that fail to open, and the blocks whose read, checksum or decompression fails. -/
structure ReadFailures where
  tables : Bytes → Bool
  blocks : Bytes → BlockHandle → Bool

def ReadFailures.none : ReadFailures := ⟨fun _ => false,fun _ _ => false⟩

/-- `SSTableReader::get`. A block that fails makes it return nothing, like a key that is not
there. -/
def SSTableReader.get (codec : Codec) (r : SSTableReader) (bloom : Option BloomFilter)
    (fails : BlockHandle → Bool) (userKey : Bytes) : Option Bytes :=
  if r.indexEntries.isEmpty then none
  else if bloom.any fun filter => !filter.mightContain userKey then none
  else
    match r.blockFor userKey with
    | none => none
    | some handle =>
      if fails handle then none
      else
        match (readBlock codec r.file handle).1 with
        | .error _ => none
        | .ok block => getByUserKey block userKey

namespace Store
variable (codec : Codec) (stack : Bytes) (s : Store)

def bloomAt (path : Bytes) : Option BloomFilter := (s.files.get (sidecarPath path)).map (BloomFilter.load stack)

/-- What `get` has from one SSTable; one that cannot be opened is skipped. -/
def tableGet (failures : ReadFailures) (key path : Bytes) : Option Bytes :=
  if failures.tables path then none
  else (SSTableReader.openFile true (s.files.get path) []).bind fun r =>
    r.get codec (s.bloomAt stack path) (failures.blocks path) key

/-- The order in which `get` goes through the SSTables. -/
def searchOrder : List Bytes :=
  (range (s.maxLevel+1)).flatMap fun level => (filesAt s.levels level).map FileMeta.path

def memoryGet (mem : MemTableRef) (seq : ℕ) (key : Bytes) : Option Bytes :=
  (mem.table.get key seq).or (s.immutableList.reverse.findSome? fun m => m.table.get key seq)

def get (failures : ReadFailures) (mem : MemTableRef) (seq : ℕ) (key : Bytes) : Except Status Bytes :=
  match s.memoryGet mem seq key with
  | some v => .ok v
  | none =>
    match s.searchOrder.findSome? (s.tableGet codec stack failures key) with
    | some v => .ok v
    | none => .error .NotFound

/-- The result is the one without failures, or a status that says that something failed. -/
def HonestGet (failures : ReadFailures) (mem : MemTableRef) (seq : ℕ) (key : Bytes) : Prop :=
  s.get codec stack failures mem seq key = s.get codec stack .none mem seq key ∨
    ∃ status, s.get codec stack failures mem seq key = .error status ∧ status ≠ .Ok ∧ status ≠ .NotFound

/-- The SSTables with an answer for the key, in the order of the search. -/
def answering (key : Bytes) : List Bytes :=
  s.searchOrder.filter fun path => (s.tableGet codec stack .none key path).isSome

/-- The table fails to open, or the block in which the key would be looked up fails. -/
def lost (failures : ReadFailures) (key path : Bytes) : Bool :=
  failures.tables path || ((SSTableReader.openFile true (s.files.get path) []).bind
    fun r => r.blockFor key).any (failures.blocks path)

variable {codec stack s}

variable (failures : ReadFailures)

/-- Failures hide answers and never change them. -/
lemma tableGet_eq (key path : Bytes) :
    s.tableGet codec stack failures key path =
      if s.lost failures key path then none else s.tableGet codec stack .none key path := by
  rw [lost,tableGet,tableGet]
  cases failures.tables path with
  | true => rfl
  | false =>
    cases hopen : SSTableReader.openFile true (s.files.get path) [] with
    | none => rfl
    | some r =>
      simp only [Bool.false_or,Option.bind_some,ReadFailures.none,SSTableReader.get]
      cases r.blockFor key with
      | none => simp
      | some handle =>
        cases hblock : failures.blocks path handle with
        | true | false => simp [hblock]

lemma findSome?_eq_head?_filter {α β : Type} (f : α → Option β) (l : List α) :
    l.findSome? f = (l.filter fun a => (f a).isSome).head?.bind f := by
  induction l with
  | nil => rfl
  | cons a l ih =>
    cases ha : f a with
    | none => simp [ha,ih]
    | some b => simp [ha]

lemma findSome?_tableGet_none (key : Bytes) :
    s.searchOrder.findSome? (s.tableGet codec stack .none key) =
      (s.answering codec stack key).head?.bind (s.tableGet codec stack .none key) :=
  findSome?_eq_head?_filter _ _

lemma findSome?_tableGet (key : Bytes) :
    s.searchOrder.findSome? (s.tableGet codec stack failures key) =
      ((s.answering codec stack key).filter fun path => !s.lost failures key path).head?.bind
        (s.tableGet codec stack .none key) := by
  have hfilter : (s.searchOrder.filter fun path => (s.tableGet codec stack failures key path).isSome) =
      (s.answering codec stack key).filter fun path => !s.lost failures key path := by
    rw [answering,filter_filter]
    apply filter_congr
    intro path _
    rw [tableGet_eq]
    cases s.lost failures key path <;> simp
  rw [findSome?_eq_head?_filter,hfilter]
  cases hhead : ((s.answering codec stack key).filter fun path => !s.lost failures key path).head? with
  | none => rfl
  | some path =>
    have hkept := (mem_filter.mp (mem_of_mem_head? hhead)).2
    rw [Option.bind_some,Option.bind_some,tableGet_eq,if_neg (by simpa using hkept)]

lemma get_ok_or_notFound (mem : MemTableRef) (seq : ℕ) (key : Bytes)
    {status : Status} (h : s.get codec stack failures mem seq key = .error status) : status = .NotFound := by
  rw [get] at h
  split at h
  · cases h
  · split at h
    · cases h
    · exact (Except.error.inj h).symm

/-- `get` is honest about failures exactly when memory answers, or the first SSTable in the search
that has an answer is not lost, or the first one that is not lost has the same answer. -/
theorem honestGet_iff (codec : Codec) (stack : Bytes) (s : Store) (failures : ReadFailures)
    (mem : MemTableRef) (seq : ℕ) (key : Bytes) :
    s.HonestGet codec stack failures mem seq key ↔ (s.memoryGet mem seq key).isSome ∨
      ∀ path, (s.answering codec stack key).head? = some path →
        ∃ path', ((s.answering codec stack key).filter fun p => !s.lost failures key p).head? = some path' ∧
          s.tableGet codec stack .none key path' = s.tableGet codec stack .none key path := by
  have hsame : s.HonestGet codec stack failures mem seq key ↔
      s.get codec stack failures mem seq key = s.get codec stack .none mem seq key := by
    refine ⟨fun h => h.resolve_right ?_,.inl⟩
    rintro ⟨status,hstatus,-,hne⟩
    exact hne (get_ok_or_notFound failures mem seq key hstatus)
  rw [hsame,get,get]
  cases s.memoryGet mem seq key with
  | some v => simp
  | none =>
    have hanswer : ∀ path ∈ s.answering codec stack key, ∃ v, s.tableGet codec stack .none key path = some v :=
      fun path hpath => Option.isSome_iff_exists.mp (mem_filter.mp hpath).2
    rw [findSome?_tableGet failures key,findSome?_tableGet_none key]
    cases hfirst : (s.answering codec stack key).head? with
    | none =>
      rw [head?_eq_none_iff.mp hfirst]
      simp
    | some path =>
      obtain ⟨v,hv⟩ := hanswer path (mem_of_mem_head? hfirst)
      cases hkept : ((s.answering codec stack key).filter fun p => !s.lost failures key p).head? with
      | none => simp [hv]
      | some path' =>
        obtain ⟨v',hv'⟩ := hanswer path' (mem_filter.mp (mem_of_mem_head? hkept)).1
        simp [hv,hv']

lemma get_of_singleton {failures : ReadFailures} {mem : MemTableRef} {seq : ℕ} {key path v : Bytes}
    (hmemory : s.memoryGet mem seq key = none) (horder : s.searchOrder = [path])
    (htable : s.tableGet codec stack failures key path = some v) :
    s.get codec stack failures mem seq key = .ok v := by
  rw [get,hmemory,horder,findSome?_singleton,htable]

def flushedStore : Store := frozenStore.flushOne markingCodec ⟨true,[],true,.full,[]⟩ frozenTable [1]

lemma searchOrder_flushedStore : flushedStore.searchOrder = [frozenStore.flushPath] := by decide +kernel

lemma memoryGet_flushedStore : flushedStore.memoryGet ⟨1,.empty⟩ 1 [107] = none := by decide +kernel

lemma tableGet_of_passes {key path : Bytes} (h : s.FilterPasses path key) (hstack : stack.length = 16) :
    s.tableGet codec stack .none key path = (SSTableReader.openFile true (s.files.get path) []).bind fun r =>
      r.get codec none (fun _ => false) key := by
  have hpass : ((s.bloomAt stack path).any fun f => !f.mightContain key) = false := by
    rw [bloomAt,Option.any_map,Option.any_eq_false]
    intro content hcontent
    simp [h content hcontent stack hstack]
  rw [tableGet,if_neg (by simp [ReadFailures.none])]
  congr 1
  funext r
  rw [SSTableReader.get,hpass]
  rfl

lemma tableGet_flushedStore :
    flushedStore.tableGet markingCodec (replicate 16 0) .none [107] frozenStore.flushPath = some [118] := by
  have hpasses : flushedStore.FilterPasses frozenStore.flushPath [107] := fun content =>
    @filterPasses_of_succeeds markingCodec frozenStore ⟨true,[],true,.full,[]⟩ ⟨⟨rfl,by simp,by simp⟩,by simp⟩ _ _
      (mem_singleton_self (Entry.bytes ⟨⟨[107],1,.value⟩,[118]⟩)) content
  rw [tableGet_of_passes hpasses rfl]
  decide +kernel

/-- The only SSTable of a database cannot be opened, and its key is reported as not found. -/
theorem not_honestGet_without_table :
    ¬ (frozenStore.flushOne markingCodec ⟨true,[],true,.full,[]⟩ frozenTable [1]).HonestGet markingCodec
      (replicate 16 0) ⟨fun _ => true,fun _ _ => false⟩ ⟨1,.empty⟩ 1 [107] := by
  have hwith : flushedStore.get markingCodec (replicate 16 0) ⟨fun _ => true,fun _ _ => false⟩ ⟨1,.empty⟩ 1 [107] =
      .error .NotFound := by decide +kernel
  have hwithout := get_of_singleton memoryGet_flushedStore searchOrder_flushedStore tableGet_flushedStore
  rintro (hsame | ⟨status,hstatus,-,hne⟩)
  · cases (hwith.symm.trans hsame).trans hwithout
  · exact hne (Except.error.inj hstatus).symm

end Store
end TitanKV.Minikv
