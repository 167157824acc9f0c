import TitanKV.Services.Rag.SideIndex

/-! The records that the RAG service keeps in minikv. Each kind of key is a map of its own: the texts in front
tell them apart. Within a kind, a scan compares the keys as bytes. -/
namespace TitanKV.Services.Rag
open Minikv List Directory

inductive TaskStatus
  | pending
  | running
  | success
  | failed
  deriving DecidableEq,Repr

structure DocumentMeta where
  docID : Bytes
  col : Bytes
  title : Bytes
  source : Bytes
  contentHash : Bytes
  chunkCount : ℕ
  createdAt : ℤ
  deriving DecidableEq,Repr

structure IngestTask where
  taskID : Bytes
  col : Bytes
  docID : Bytes
  status : TaskStatus
  progress : ℕ
  error : Bytes
  deriving DecidableEq,Repr

def chunkPrefix (col docID : Bytes) : Bytes := ascii "rag:chunk:".toList ++ col ++ colon::docID ++ [colon]

def docPrefix (col : Bytes) : Bytes := ascii "rag:doc:".toList ++ col++[colon]

def docMetaKey (col docID : Bytes) : Bytes := ascii "rag:doc:".toList ++ col ++ colon::docID ++ ascii ":meta".toList

def inRange (pre key : Bytes) : Bool := (compare pre key).isLE && (compare key (pre++[255])).isLT

/-- The records are filed under what they say they are. -/
structure Kv where
  metas : Directory (Bytes × Bytes) DocumentMeta
  statuses : Directory (Bytes × Bytes) TaskStatus
  chunks : Directory (Bytes × Bytes × ℤ) ChunkRecord
  tasks : Directory Bytes IngestTask
  filedMetas : ∀ e ∈ metas, (e.2.col,e.2.docID) = e.1
  filedChunks : ∀ e ∈ chunks, (e.2.col,e.2.docID,e.2.seq) = e.1

namespace Kv

def empty : Kv := ⟨[],[],[],[],fun _ h => (by cases h),fun _ h => (by cases h)⟩

def putMeta (kv : Kv) (m : DocumentMeta) : Kv :=
  { kv with
    metas := kv.metas.set (m.col,m.docID) m
    filedMetas := by
      intro e he
      obtain rfl | he := mem_of_mem_set he
      · rfl
      · exact kv.filedMetas e he }

def putChunk (kv : Kv) (c : ChunkRecord) : Kv :=
  { kv with
    chunks := kv.chunks.set (c.col,c.docID,c.seq) c
    filedChunks := by
      intro e he
      obtain rfl | he := mem_of_mem_set he
      · rfl
      · exact kv.filedChunks e he }

def putStatus (kv : Kv) (col docID : Bytes) (status : TaskStatus) : Kv :=
  { kv with statuses := kv.statuses.set (col,docID) status }

def saveTask (kv : Kv) (t : IngestTask) : Kv := { kv with tasks := kv.tasks.set t.taskID t }

def loadTask (kv : Kv) (taskID : Bytes) : Option IngestTask := kv.tasks.get taskID

def saveDocument (kv : Kv) (m : DocumentMeta) (chunks : List ChunkRecord) (status : TaskStatus) : Kv :=
  (chunks.foldl putChunk (kv.putMeta m)).putStatus m.col m.docID status

def scanned {κ ν : Type*} (encode : κ → Bytes) (pre : Bytes) (d : Directory κ ν) : List ν :=
  ((d.filter fun e => inRange pre (encode e.1)).insertionSort
    fun a b => (compare (encode a.1) (encode b.1)).isLE = true).map Prod.snd

def listChunks (kv : Kv) (col docID : Bytes) : List ChunkRecord :=
  scanned (fun k => chunkKey k.1 k.2.1 k.2.2) (chunkPrefix col docID) kv.chunks

/-- The status keys of the range do not end in `:meta`. -/
def listDocuments (kv : Kv) (col : Bytes) : List DocumentMeta :=
  scanned (fun k => docMetaKey k.1 k.2) (docPrefix col) kv.metas

def removeChunk (kv : Kv) (c : ChunkRecord) : Kv :=
  { kv with
    chunks := kv.chunks.unlink (c.col,c.docID,c.seq)
    filedChunks := fun e he => kv.filedChunks e (mem_of_mem_filter he) }

def removeMeta (kv : Kv) (col docID : Bytes) : Kv :=
  { kv with
    metas := kv.metas.unlink (col,docID)
    statuses := kv.statuses.unlink (col,docID)
    filedMetas := fun e he => kv.filedMetas e (mem_of_mem_filter he) }

def deleteDocument (kv : Kv) (col docID : Bytes) : Kv :=
  ((kv.listChunks col docID).foldl removeChunk kv).removeMeta col docID

/-- The document with this content that a scan of the collection comes to first. -/
def findByHash (kv : Kv) (col hash : Bytes) : Option DocumentMeta := (kv.listDocuments col).find? fun m =>
    m.contentHash = hash

/-- The id belongs to a chunk of a stored document. -/
def Stores (kv : Kv) (id : Bytes) : Prop := ∃ e ∈ kv.chunks, e.2.chunkID = id

instance decidableStores (kv : Kv) (id : Bytes) : Decidable (kv.Stores id) :=
  inferInstanceAs (Decidable (∃ e ∈ kv.chunks, e.2.chunkID = id))

end Kv

section Ranges

lemma inRange_cons {a b : UInt8} {pre key : Bytes} :
    inRange (a::pre) (b::key) = true ↔ a = b ∧ inRange pre key = true := by
  rw [inRange,inRange,cons_append,compare_cons,compare_cons]
  cases hab : compare a b with
  | lt =>
    have hba : compare b a = .gt := Std.OrientedCmp.gt_of_lt hab
    have hne : a ≠ b := by
      rintro rfl
      rw [Std.ReflOrd.compare_self] at hab
      cases hab
    simp [hba,hne]
  | eq =>
    obtain rfl := Std.LawfulEqOrd.eq_of_compare hab
    simp
  | gt =>
    have hne : a ≠ b := by
      rintro rfl
      rw [Std.ReflOrd.compare_self] at hab
      cases hab
    simp [hne]

/-- The range of a text holds what starts with it and does not go on with a byte 255. -/
lemma inRange_iff {pre key : Bytes} :
    inRange pre key = true ↔ ∃ rest, key = pre++rest ∧ compare rest [255] = .lt := by
  induction pre generalizing key with
  | nil =>
    have hnil : (compare ([] : Bytes) key).isLE = true := by cases key <;> rfl
    rw [inRange,hnil,Bool.true_and,nil_append]
    simp
  | cons a pre ih =>
    cases key with
    | nil => simp [inRange,show compare (a::pre) ([] : Bytes) = .gt from rfl]
    | cons b key =>
      rw [inRange_cons,ih]
      constructor
      · rintro ⟨rfl,rest,rfl,h⟩
        exact ⟨rest,rfl,h⟩
      · rintro ⟨rest,heq,h⟩
        obtain ⟨rfl,rfl⟩ := cons.inj heq
        exact ⟨rfl,rest,rfl,h⟩

lemma colon_not_mem_padded (seq : ℕ) : colon ∉ padded seq := by
  intro h
  exact absurd (mem_padded h).2 (by decide)

lemma inRange_chunkKey {col docID c d : Bytes} {seq : ℕ} (hc : colon ∉ c) (hd : colon ∉ d) :
    inRange (chunkPrefix col docID) (chunkKey c d seq) = true ↔ c = col ∧ d = docID := by
  rw [inRange_iff]
  constructor
  · rintro ⟨rest,heq,-⟩
    rw [chunkPrefix,chunkKey] at heq
    simp only [append_assoc,append_cancel_left_eq,cons_append,nil_append] at heq
    have hcount := congrArg (List.count colon) heq
    have hpadded := colon_not_mem_padded seq
    simp only [count_append,count_cons_self,count_eq_zero_of_not_mem hc,count_eq_zero_of_not_mem hd,
      count_eq_zero_of_not_mem hpadded] at hcount
    have hcol : colon ∉ col := count_eq_zero.mp (by omega)
    have hdocID : colon ∉ docID := count_eq_zero.mp (by omega)
    obtain ⟨rfl,hrest⟩ := split_first hc hcol heq
    exact ⟨rfl,(split_first hd hdocID hrest).1⟩
  · rintro ⟨rfl,rfl⟩
    refine ⟨padded seq,by simp [chunkPrefix,chunkKey],?_⟩
    cases hpadded : padded seq with
    | nil => rfl
    | cons b rest =>
      have hb : b.toNat≤57 := (mem_padded (hpadded ▸ mem_cons_self)).2
      have hlt : compare b 255 = .lt := by
        rw [Std.compare_eq_lt,UInt8.lt_iff_toNat_lt]
        exact hb.trans_lt (by decide)
      rw [compare_cons,hlt]
      rfl

end Ranges

section Batches
variable {kv : Kv} {col docID : Bytes}

lemma mem_scanned {κ ν : Type*} {encode : κ → Bytes} {pre : Bytes} {d : Directory κ ν} {v : ν} :
    v ∈ Kv.scanned encode pre d ↔ ∃ k, (k,v) ∈ d ∧ inRange pre (encode k) = true := by
  simp [Kv.scanned]

variable {e : (Bytes × Bytes × ℤ) × ChunkRecord} {records : List ChunkRecord}

lemma mem_chunks_foldl_putChunk
    (h : e ∈ (records.foldl Kv.putChunk kv).chunks) : e.2 ∈ records ∨ e ∈ kv.chunks := by
  induction records generalizing kv with
  | nil => exact .inr h
  | cons c records ih =>
    obtain h | h := ih h
    · exact .inl (mem_cons_of_mem _ h)
    · obtain rfl | h := mem_of_mem_set h
      · exact .inl mem_cons_self
      · exact .inr h

lemma mem_names_foldl_putChunk {k : Bytes × Bytes × ℤ} :
    k ∈ (records.foldl Kv.putChunk kv).chunks.names ↔
      (∃ c ∈ records, (c.col,c.docID,c.seq) = k) ∨ k ∈ kv.chunks.names := by
  induction records generalizing kv with
  | nil => simp
  | cons c records ih =>
    rw [foldl_cons,ih,Kv.putChunk,mem_names_set,exists_mem_cons_iff,eq_comm (a := k)]
    exact or_left_comm.trans or_assoc.symm

lemma metas_foldl_putChunk (records : List ChunkRecord) : (records.foldl Kv.putChunk kv).metas = kv.metas := by
  induction records generalizing kv with
  | nil => rfl
  | cons c records ih => exact ih

lemma tasks_foldl_putChunk (records : List ChunkRecord) : (records.foldl Kv.putChunk kv).tasks = kv.tasks := by
  induction records generalizing kv with
  | nil => rfl
  | cons c records ih => exact ih

lemma mem_chunks_foldl_removeChunk :
    e ∈ (records.foldl Kv.removeChunk kv).chunks ↔ e ∈ kv.chunks ∧ ∀ c ∈ records, e.1 ≠ (c.col,c.docID,c.seq) := by
  induction records generalizing kv with
  | nil => simp
  | cons c records ih =>
    have hunlink : e ∈ (kv.removeChunk c).chunks ↔ e ∈ kv.chunks ∧ e.1 ≠ (c.col,c.docID,c.seq) := by
      simp [Kv.removeChunk,unlink]
    rw [foldl_cons,ih,hunlink,forall_mem_cons,and_assoc]

lemma mem_chunks_deleteDocument :
    e ∈ (kv.deleteDocument col docID).chunks ↔
      e ∈ kv.chunks ∧ inRange (chunkPrefix col docID) (chunkKey e.1.1 e.1.2.1 e.1.2.2) = false := by
  rw [Kv.deleteDocument,Kv.removeMeta,mem_chunks_foldl_removeChunk]
  refine and_congr_right fun he => ?_
  constructor
  · intro h
    by_contra hrange
    have hmem : e.2 ∈ kv.listChunks col docID := mem_scanned.mpr ⟨e.1,he,by simpa using hrange⟩
    exact h e.2 hmem (kv.filedChunks e he).symm
  · rintro hrange c hc heq
    obtain ⟨k,hk,hin⟩ := mem_scanned.mp hc
    have hfiled := kv.filedChunks (k,c) hk
    rw [heq,hfiled] at hrange
    exact absurd hin (by simp [hrange])

end Batches
end TitanKV.Services.Rag
