import TitanKV.Library.Runs
import TitanKV.Services.Rag.Store
import TitanKV.Services.Rag.VectorIndex

/-! The three places that know the chunks of a document: minikv, the index in memory and the snapshot files, from
which a restart rebuilds the index. An ingest rewrites the file of its collection; a deletion rewrites none. -/
namespace TitanKV.Services.Rag
open Minikv List Directory VectorIndex Runs

universe u

/-- A chunk of a text with its vector. -/
structure Piece (F : Type*) where
  heading : Bytes
  text : Bytes
  vec : List F
  deriving DecidableEq

/-- A document as it is ingested: the chunker numbers the pieces from zero. -/
structure Document (F : Type*) where
  col : Bytes
  docID : Bytes
  title : Bytes
  source : Bytes
  contentHash : Bytes
  pieces : List (Piece F)
  createdAt : ℤ
  deriving DecidableEq

/-- Neither separator occurs in the name. -/
def plain (name : Bytes) : Bool := name.all fun b => b ≠ slash ∧ b ≠ colon

def ensureColName (col : Bytes) : Bool := col ≠ [] ∧ plain col

lemma plain_of_ensureColName {col : Bytes} (h : ensureColName col = true) : plain col = true := by
  have hboth : col ≠ [] ∧ plain col = true := by simpa [ensureColName] using h
  exact hboth.2

namespace Document
variable {F : Type*}

def info (d : Document F) : DocumentMeta :=
  ⟨d.docID,d.col,d.title,d.source,d.contentHash,d.pieces.length,d.createdAt⟩

def record (d : Document F) (i : ℕ) (p : Piece F) : ChunkRecord :=
  ⟨chunkID d.col d.docID i,d.col,d.docID,i,p.heading,p.text⟩

def records (d : Document F) : List ChunkRecord := d.pieces.mapIdx d.record

def vectors (d : Document F) : Directory Bytes (List F) := d.pieces.mapIdx fun i p => (chunkID d.col d.docID i,p.vec)

end Document

/-- A snapshot is written, cannot be created, or breaks off and cannot be decoded later. -/
inductive SaveOutcome
  | saved
  | notCreated
  | torn
  deriving DecidableEq,Repr

/-- The state of the service. A file that cannot be decoded holds nothing. -/
structure Service {F : Type u} (I : VectorIndex F) where
  kv : Kv
  index : I.Index
  files : Directory Bytes (Option (Snapshot F))

def colFile (col : Bytes) : Bytes := col ++ ascii ".idx".toList

def allFile (unix : ℕ) : Bytes := ascii "all-".toList ++ decimal unix ++ ascii ".idx".toList

def fileVectors {F : Type u} (file : Bytes × Option (Snapshot F)) : Directory Bytes (List F) :=
  match file.2 with
  | none => []
  | some snapshot => snapshot.vectors

namespace Service
variable {F : Type u} {I : VectorIndex F}

def init (I : VectorIndex F) (dim : ℕ) : Service I := ⟨.empty,I.new dim,[]⟩

def saveFile (s : Service I) (name : Bytes) (snapshot : Snapshot F) : SaveOutcome → Service I
  | .saved => { s with files := s.files.set name (some snapshot) }
  | .notCreated => s
  | .torn => { s with files := s.files.set name none }

def saveSnapshot (s : Service I) (col : Bytes) (o : SaveOutcome) : Service I :=
  s.saveFile (colFile col) (I.saveSnapshotPrefix s.index (col++[slash])) o

def addVectors (s : Service I) (d : Document F) (draws : ℕ → I.Draw) : Option (Service I) :=
  (I.addAll draws d.vectors s.index).map fun index => { s with index := index }

def storeDocument (s : Service I) (d : Document F) : Service I :=
  { s with kv := s.kv.saveDocument d.info d.records .running }

def finishDocument (s : Service I) (d : Document F) : Service I :=
  { s with kv := s.kv.putStatus d.col d.docID .success }

/-- An ingest that succeeds. A document with the same content is found and nothing is stored. -/
def ingest (s : Service I) (d : Document F) (o : SaveOutcome) (draws : ℕ → I.Draw) : Option (Service I) :=
  match s.kv.findByHash d.col d.contentHash with
  | some _ => some s
  | none => ((s.storeDocument d).addVectors d draws).map fun s => (s.finishDocument d).saveSnapshot d.col o

def delete (s : Service I) (col docID : Bytes) : Option (Service I) :=
  (I.clearByPrefix s.index (col ++ slash::docID ++ [slash])).map fun index =>
    { s with kv := s.kv.deleteDocument col docID, index := index }

/-- `SaveSnapshot` of the whole index under the time in seconds. -/
def snapshot (s : Service I) (unix : ℕ) (o : SaveOutcome) : Service I :=
  s.saveFile (allFile unix) (I.saveSnapshot s.index) o

/-- `loadAllSnapshots` into a new index: one file after the other, in the order of their names. -/
def restart (s : Service I) (draws : ℕ → I.Draw) : Option (Service I) :=
  let files := s.files.insertionSort fun a b => (compare a.1 b.1).isLE = true
  (I.mergeAll draws (files.flatMap fileVectors) (I.new (I.dim s.index))).map fun index => { s with index := index }

end Service

inductive Event {F : Type u} (I : VectorIndex F)
  | ingest (d : Document F) (o : SaveOutcome) (draws : ℕ → I.Draw)
  | delete (col docID : Bytes)
  | snapshot (unix : ℕ) (o : SaveOutcome)
  | restart (draws : ℕ → I.Draw)

lemma any_eq_iff_mem_names {F : Type u} {vectors : Directory Bytes (List F)} {id : Bytes} :
    (vectors.any fun v => v.1 = id) = true ↔ id ∈ vectors.names := by
  simp [names]

namespace Service
variable {F : Type u} {I : VectorIndex F}

/-- The collection of an ingest is checked and the id of its document is drawn by `uuid`; a text without a chunk is
not ingested. The parameters of a route have no slash. -/
def step (s : Service I) : Event I → Option (Service I)
  | .ingest d o draws => if ensureColName d.col ∧ plain d.docID ∧ 0<d.pieces.length then s.ingest d o draws else none
  | .delete col docID => if col.all (· ≠ slash) ∧ docID.all (· ≠ slash) then s.delete col docID else none
  | .snapshot unix o => some (s.snapshot unix o)
  | .restart draws => s.restart draws

/-- The index has the chunks of the stored documents and no others. -/
def Faithful (s : Service I) : Prop := ∀ id, id ∈ I.ids s.index ↔ s.kv.Stores id

/-- Some file that can be decoded has a vector of this chunk. -/
def OnFile (s : Service I) (id : Bytes) : Prop := ∃ name snapshot, (name,some snapshot) ∈ s.files ∧
    id ∈ snapshot.vectors.names

instance decidableOnFile (s : Service I) (id : Bytes) : Decidable (s.OnFile id) :=
  decidable_of_iff (∃ file ∈ s.files, ∃ snapshot ∈ file.2, snapshot.vectors.any fun v => v.1 = id)
    ⟨fun ⟨file,hfile,snapshot,hsome,hid⟩ => ⟨file.1,snapshot,hsome ▸ hfile,any_eq_iff_mem_names.mp hid⟩,
      fun ⟨_,snapshot,hfile,hid⟩ => ⟨_,hfile,snapshot,rfl,any_eq_iff_mem_names.mpr hid⟩⟩

/-- Every vector, in memory and on file, has the length that the index was made for. -/
structure Fitting (n : ℕ) (s : Service I) : Prop where
  dim : I.dim s.index = n
  index : ∀ v ∈ (I.saveSnapshot s.index).vectors, v.2.length = n
  files : ∀ file ∈ s.files, ∀ v ∈ fileVectors file, v.2.length = n

/-- The vectors of an ingest have the length of the index and its snapshot file is written, no file breaks off, and
at a restart no file has a chunk of a document that was deleted. -/
def Tidy (s : Service I) : Event I → Prop
  | .ingest d o _ => o = .saved ∧ ∀ p ∈ d.pieces, p.vec.length = I.dim s.index
  | .snapshot _ o => o ≠ .torn
  | .delete _ _ => True
  | .restart _ => ∀ id, s.OnFile id → s.kv.Stores id

instance decidableTidy (s : Service I) : ∀ e, Decidable (s.Tidy e)
  | .ingest d o _ => inferInstanceAs (Decidable (o = .saved ∧ ∀ p ∈ d.pieces, p.vec.length = I.dim s.index))
  | .snapshot _ o => inferInstanceAs (Decidable (o ≠ .torn))
  | .delete _ _ => .isTrue trivial
  | .restart _ =>
    decidable_of_iff (∀ file ∈ s.files, ∀ snapshot ∈ file.2, ∀ id ∈ snapshot.vectors.names, s.kv.Stores id)
      ⟨fun h id ⟨_,snapshot,hfile,hid⟩ => h _ hfile snapshot rfl id hid,
        fun h file hfile snapshot hsome id hid => h id ⟨file.1,snapshot,hsome ▸ hfile,hid⟩⟩

/-- A stored chunk is named as the service names them. -/
def Named (e : (Bytes × Bytes × ℤ) × ChunkRecord) : Prop :=
  plain e.1.1 = true ∧ plain e.1.2.1 = true ∧ ∃ seq : ℕ, e.1.2.2 = seq ∧ e.2.chunkID = chunkID e.1.1 e.1.2.1 seq

/-- It is also in the index and in the file of its collection. -/
structure Kept (s : Service I) (e : (Bytes × Bytes × ℤ) × ChunkRecord) : Prop where
  named : Named e
  indexed : e.2.chunkID ∈ I.ids s.index
  filed : ∃ snapshot, s.files.get (colFile e.1.1) = some (some snapshot) ∧ e.2.chunkID ∈ snapshot.vectors.names

def Covered (s : Service I) : Prop := ∀ e ∈ s.kv.chunks, s.Kept e

end Service

section Names
variable {col docID c d : Bytes}

lemma not_mem_of_plain {name : Bytes} (h : plain name = true) : slash ∉ name ∧ colon ∉ name := by
  have hall : ∀ b ∈ name, b ≠ slash ∧ b ≠ colon := by simpa [plain] using h
  exact ⟨fun hb => (hall slash hb).1 rfl,fun hb => (hall colon hb).2 rfl⟩

lemma isPrefixOf_chunkID (col docID : Bytes) (seq : ℤ) :
    (col++[slash]).isPrefixOf (chunkID col docID seq) = true := by
  rw [ isPrefixOf_iff_prefix]
  exact ⟨docID ++ slash::padded seq,by simp [chunkID]⟩

lemma eq_of_isPrefixOf_chunkID {seq : ℤ} (hcol : slash ∉ col) (hdocID : slash ∉ docID) (hc : slash ∉ c)
    (hd : slash ∉ d) (h : (col ++ slash::docID ++ [slash]).isPrefixOf (chunkID c d seq) = true) :
    c = col ∧ d = docID := by
  obtain ⟨rest,heq⟩ := isPrefixOf_iff_prefix.mp h
  rw [chunkID] at heq
  simp only [append_assoc,cons_append,nil_append] at heq
  obtain ⟨rfl,hrest⟩ := split_first hcol hc heq
  exact ⟨rfl,(split_first hdocID hd hrest).1.symm⟩

lemma colFile_inj {col col' : Bytes} : colFile col = colFile col' ↔ col = col' := append_left_inj _

end Names

namespace Service
variable {F : Type u} {I : VectorIndex F} {s s' : Service I} {dim : ℕ}

section Lengths

lemma Fitting.init (I : VectorIndex F) (dim : ℕ) : Fitting dim (init I dim) := by
  refine ⟨I.dim_new dim,?_,?_⟩
  · rw [show (I.saveSnapshot (Service.init I dim).index).vectors = [] from I.vectors_new dim]
    rintro v ⟨⟩
  · rintro file ⟨⟩

variable {o : SaveOutcome}

lemma Fitting.saveFile {name : Bytes} {snapshot : Snapshot F} (h : s.Fitting dim)
    (hsnapshot : ∀ v ∈ snapshot.vectors, v.2.length = dim) : (s.saveFile name snapshot o).Fitting dim := by
  cases o with
  | saved =>
    refine ⟨h.dim,h.index,fun file hfile => ?_⟩
    obtain rfl | hfile := mem_of_mem_set hfile
    · exact hsnapshot
    · exact h.files file hfile
  | notCreated => exact h
  | torn =>
    refine ⟨h.dim,h.index,fun file hfile => ?_⟩
    obtain rfl | hfile := mem_of_mem_set hfile
    · rintro v ⟨⟩
    · exact h.files file hfile

lemma Fitting.of_puts {idx : I.Index} {index : I.Index} {kv : Kv} {vectors : Directory Bytes (List F)}
    (h : s.Fitting dim) (hputs : I.Puts idx index vectors) (hdim : I.dim idx = dim)
    (hidx : ∀ v ∈ (I.saveSnapshot idx).vectors, v.2.length = dim) (hvectors : ∀ v ∈ vectors, v.2.length = dim) :
    Fitting dim ⟨kv,index,s.files⟩ := by
  refine ⟨hputs.dim.trans hdim,fun v hv => ?_,h.files⟩
  obtain hv | hv := hputs.origin v hv
  · exact hvectors v hv
  · exact hidx v hv

lemma Fitting.addVectors {d : Document F} {draws : ℕ → I.Draw} (h : s.Fitting dim)
    (hadd : s.addVectors d draws = some s') :
    s'.Fitting dim := by
  obtain ⟨index,hindex,rfl⟩ := Option.map_eq_some_iff.mp hadd
  refine h.of_puts (puts_addAll hindex) h.dim h.index fun v hv => ?_
  rw [← h.dim]
  simpa using (mem_filter.mp hv).2

lemma mem_restart_vectors {files : Directory Bytes (Option (Snapshot F))} {v : Bytes × List F} :
    v ∈ (files.insertionSort fun a b => (compare a.1 b.1).isLE = true).flatMap fileVectors ↔ ∃ file ∈ files,
      v ∈ fileVectors file := by
  simp only [mem_flatMap,mem_insertionSort]

lemma puts_restart {draws : ℕ → I.Draw} (h : s.Fitting dim) (hrestart : s.restart draws = some s') :
    ∃ index, s' = { s with index := index } ∧ I.Puts (I.new dim) index
      ((s.files.insertionSort fun a b => (compare a.1 b.1).isLE = true).flatMap fileVectors) := by
  obtain ⟨index,hindex,rfl⟩ := Option.map_eq_some_iff.mp hrestart
  rw [h.dim] at hindex
  refine ⟨index,rfl,puts_mergeAll (fun v hv => ?_) hindex⟩
  obtain ⟨file,hfile,hv⟩ := mem_restart_vectors.mp hv
  rw [I.dim_new]
  exact h.files file hfile v hv

lemma Fitting.restart {draws : ℕ → I.Draw} (h : s.Fitting dim) (hrestart : s.restart draws = some s') :
    s'.Fitting dim := by
  obtain ⟨index,rfl,hputs⟩ := puts_restart h hrestart
  refine h.of_puts hputs (I.dim_new dim) (by simp [I.vectors_new]) fun v hv => ?_
  obtain ⟨file,hfile,hv⟩ := mem_restart_vectors.mp hv
  exact h.files file hfile v hv

lemma Fitting.saveSnapshot {col : Bytes} (h : s.Fitting dim) : (s.saveSnapshot col o).Fitting dim :=
  h.saveFile fun v hv => h.index v ((I.mem_saveSnapshotPrefix _ _ v).mp hv).1

lemma ingest_cases {d : Document F} {draws : ℕ → I.Draw} (h : s.ingest d o draws = some s') :
    s' = s ∨ ∃ added, (s.storeDocument d).addVectors d draws = some added ∧
      s' = (added.finishDocument d).saveSnapshot d.col o := by
  unfold Service.ingest at h
  split at h
  · exact .inl (Option.some.inj h).symm
  · obtain ⟨added,hadd,rfl⟩ := Option.map_eq_some_iff.mp h
    exact .inr ⟨added,hadd,rfl⟩

lemma Fitting.step {e : Event I} (h : s.Fitting dim) (hstep : s.step e = some s') : s'.Fitting dim := by
  cases e with
  | ingest d o draws =>
    simp only [Service.step,Option.ite_none_right_eq_some] at hstep
    obtain rfl | ⟨added,hadd,rfl⟩ := ingest_cases hstep.2
    · exact h
    · have hstored : (s.storeDocument d).Fitting dim := { h with }
      have hadded := hstored.addVectors hadd
      have hfinished : (added.finishDocument d).Fitting dim := { hadded with }
      exact hfinished.saveSnapshot
  | delete col docID =>
    simp only [Service.step,Option.ite_none_right_eq_some] at hstep
    obtain ⟨index,hindex,rfl⟩ := Option.map_eq_some_iff.mp hstep.2
    exact ⟨(I.dim_clearByPrefix hindex).trans h.dim,fun v hv => h.index v ((I.mem_clearByPrefix hindex v).mp hv).1,
      h.files⟩
  | snapshot unix o =>
    cases hstep
    exact h.saveFile h.index
  | restart draws => exact h.restart hstep

end Lengths

variable {draws : ℕ → I.Draw}

lemma mem_ids_restart (h : s.Fitting dim) (hrestart : s.restart draws = some s') (id : Bytes) :
    id ∈ I.ids s'.index ↔ s.OnFile id := by
  obtain ⟨index,rfl,hputs⟩ := puts_restart h hrestart
  have hnew : id ∉ I.ids (I.new dim) := by simp [ids,I.vectors_new,names]
  rw [hputs.ids,or_iff_left hnew,names,mem_map]
  constructor
  · rintro ⟨v,hv,rfl⟩
    obtain ⟨⟨name,_ | snapshot⟩,hfile,hv⟩ := mem_restart_vectors.mp hv
    · cases hv
    · exact ⟨name,snapshot,hfile,mem_map_of_mem hv⟩
  · rintro ⟨name,snapshot,hfile,hid⟩
    obtain ⟨v,hv,rfl⟩ := mem_map.mp hid
    exact ⟨v,mem_restart_vectors.mpr ⟨_,hfile,hv⟩,rfl⟩

/-- The index is right after a restart exactly if no file has a chunk of a document that is gone and every stored
chunk is in some file. -/
lemma faithful_restart_iff (h : s.Fitting dim) (hrestart : s.restart draws = some s') :
    s'.Faithful ↔ (∀ id, s.OnFile id → s.kv.Stores id) ∧ ∀ id, s.kv.Stores id → s.OnFile id := by
  have hkv : s'.kv = s.kv := by
    obtain ⟨index,rfl,-⟩ := puts_restart h hrestart
    rfl
  simp only [Faithful,mem_ids_restart h hrestart,hkv]
  exact forall_congr' (fun _ => iff_def) |>.trans forall_and

variable {e : (Bytes × Bytes × ℤ) × ChunkRecord}

lemma Kept.of_saved {name : Bytes} {snapshot : Snapshot F} {kv : Kv} (h : s.Kept e)
    (hname : colFile e.1.1 = name → e.2.chunkID ∈ snapshot.vectors.names) :
    Kept ⟨kv,s.index,s.files.set name (some snapshot)⟩ e := by
  refine ⟨h.named,h.indexed,?_⟩
  by_cases heq : colFile e.1.1 = name
  · exact ⟨snapshot,by rw [get_set,if_pos heq],hname heq⟩
  · obtain ⟨snapshot',hget,hid⟩ := h.filed
    exact ⟨snapshot',by rw [get_set,if_neg heq,hget],hid⟩

variable {d : Document F}

lemma mem_chunks_storeDocument (h : e ∈ (s.storeDocument d).kv.chunks) :
    (∃ i, ∃ hi : i<d.pieces.length, e.2 = d.record i d.pieces[i] ∧ e.1 = (d.col,d.docID,(i : ℤ))) ∨
      e ∈ s.kv.chunks := by
  obtain hrecord | hold := mem_chunks_foldl_putChunk h
  · obtain ⟨i,hi,hc⟩ := mem_mapIdx.mp hrecord
    refine .inl ⟨i,hi,hc.symm,?_⟩
    rw [← (s.storeDocument d).kv.filedChunks e h,← hc]
    rfl
  · exact .inr hold

lemma named_of_record {i : ℕ} {p : Piece F} (hcol : plain d.col = true) (hdocID : plain d.docID = true)
    (hrecord : e.2 = d.record i p) (hkey : e.1 = (d.col,d.docID,(i : ℤ))) : Named e := by
  obtain ⟨k,c⟩ := e
  obtain rfl : k = _ := hkey
  obtain rfl : c = _ := hrecord
  exact ⟨hcol,hdocID,i,rfl,rfl⟩

lemma mem_ids_addVectors (hadd : s.addVectors d draws = some s') (id : Bytes) :
    id ∈ I.ids s'.index ↔
      (∃ i, ∃ hi : i<d.pieces.length, d.pieces[i].vec.length = I.dim s.index ∧ id = chunkID d.col d.docID i) ∨
        id ∈ I.ids s.index := by
  obtain ⟨index,hindex,rfl⟩ := Option.map_eq_some_iff.mp hadd
  rw [(puts_addAll hindex).ids,names,mem_map]
  refine or_congr_left ⟨?_,?_⟩
  · rintro ⟨v,hv,rfl⟩
    obtain ⟨hv,hdim⟩ := mem_filter.mp hv
    obtain ⟨i,hi,rfl⟩ := mem_mapIdx.mp hv
    exact ⟨i,hi,of_decide_eq_true hdim,rfl⟩
  · rintro ⟨i,hi,hdim,rfl⟩
    exact ⟨_,mem_filter.mpr ⟨mem_mapIdx.mpr ⟨i,hi,rfl⟩,decide_eq_true hdim⟩,rfl⟩

lemma Covered.ingest (h : s.Covered) (hcol : ensureColName d.col = true)
    (hdocID : plain d.docID = true) (hdim : ∀ p ∈ d.pieces, p.vec.length = I.dim s.index)
    (hingest : s.ingest d .saved draws = some s') : s'.Covered := by
  obtain rfl | ⟨added,hadd,rfl⟩ := ingest_cases hingest
  · exact h
  · have hids := mem_ids_addVectors hadd
    obtain ⟨index,hindex,rfl⟩ := Option.map_eq_some_iff.mp hadd
    intro e he
    have hsnapshot (hid : e.2.chunkID ∈ I.ids index) (hpre : (d.col++[slash]).isPrefixOf e.2.chunkID = true) :
        e.2.chunkID ∈ (I.saveSnapshotPrefix index (d.col++[slash])).vectors.names :=
      mem_names_saveSnapshotPrefix.mpr ⟨hid,hpre⟩
    obtain ⟨i,hi,hrecord,hkey⟩ | hold := mem_chunks_storeDocument he
    · have hid : e.2.chunkID = chunkID d.col d.docID i := by rw [hrecord]; rfl
      have hindexed : e.2.chunkID ∈ I.ids index := (hids _).mpr (.inl ⟨i,hi,hdim _ (getElem_mem hi),hid⟩)
      refine ⟨named_of_record (plain_of_ensureColName hcol) hdocID hrecord hkey,hindexed,?_⟩
      refine ⟨_,?_,hsnapshot hindexed (hid ▸ isPrefixOf_chunkID _ _ _)⟩
      rw [hkey]
      exact (get_set ..).trans (if_pos rfl)
    · have hkept := h e hold
      have hindexed : e.2.chunkID ∈ I.ids index := (hids _).mpr (.inr hkept.indexed)
      have hadded : Kept { s with index := index } e := ⟨hkept.named,hindexed,hkept.filed⟩
      refine hadded.of_saved fun hname => ?_
      obtain ⟨-,-,seq,-,hid⟩ := hkept.named
      rw [colFile_inj.mp hname] at hid
      exact hsnapshot hindexed (hid ▸ isPrefixOf_chunkID _ _ _)

lemma Covered.delete {col docID : Bytes} (h : s.Covered) (hcol : slash ∉ col) (hdocID : slash ∉ docID)
    (hdelete : s.delete col docID = some s') : s'.Covered := by
  obtain ⟨index,hindex,rfl⟩ := Option.map_eq_some_iff.mp hdelete
  intro e he
  obtain ⟨hold,hrange⟩ := mem_chunks_deleteDocument.mp he
  obtain ⟨⟨hc,hd,seq,hseq,hid⟩,hindexed,hfiled⟩ := h e hold
  refine ⟨⟨hc,hd,seq,hseq,hid⟩,?_,hfiled⟩
  refine (mem_ids_clearByPrefix hindex).mpr ⟨hindexed,fun hpre => ?_⟩
  rw [hid] at hpre
  have heq := eq_of_isPrefixOf_chunkID hcol hdocID (not_mem_of_plain hc).1 (not_mem_of_plain hd).1 hpre
  rw [hseq,(inRange_chunkKey (not_mem_of_plain hc).2 (not_mem_of_plain hd).2).mpr heq] at hrange
  cases hrange

lemma Covered.snapshot {unix : ℕ} {o : SaveOutcome} (h : s.Covered) (ho : o ≠ .torn) :
    (s.snapshot unix o).Covered := by
  cases o with
  | saved => exact fun e he => (h e he).of_saved fun _ => (h e he).indexed
  | notCreated => exact h
  | torn => exact absurd rfl ho

lemma onFile_of_get {name id : Bytes} {snapshot : Snapshot F} (hget : s.files.get name = some (some snapshot))
    (hid : id ∈ snapshot.vectors.names) : s.OnFile id := by
  obtain ⟨file,hfile,heq⟩ := Option.map_eq_some_iff.mp hget
  exact ⟨file.1,snapshot,by rw [← heq]; exact mem_of_find?_eq_some hfile,hid⟩

lemma Covered.restart (h : s.Covered) (hfitting : s.Fitting dim) (hrestart : s.restart draws = some s') :
    s'.Covered := by
  have hids := mem_ids_restart hfitting hrestart
  obtain ⟨index,rfl,-⟩ := puts_restart hfitting hrestart
  intro e he
  obtain ⟨hnamed,-,snapshot,hget,hid⟩ := h e he
  exact ⟨hnamed,(hids _).mpr (onFile_of_get hget hid),snapshot,hget,hid⟩

lemma Covered.step {e : Event I} (h : s.Covered) (hfitting : s.Fitting dim) (htidy : s.Tidy e)
    (hstep : s.step e = some s') :
    s'.Covered := by
  cases e with
  | ingest d o draws =>
    simp only [Service.step,Option.ite_none_right_eq_some] at hstep
    obtain ⟨⟨hcol,hdocID,-⟩,hingest⟩ := hstep
    obtain ⟨rfl,hdim⟩ := htidy
    exact h.ingest hcol hdocID hdim hingest
  | delete col docID =>
    simp only [Service.step,Option.ite_none_right_eq_some] at hstep
    obtain ⟨⟨hcol,hdocID⟩,hdelete⟩ := hstep
    have hslash {name : Bytes} (hname : name.all (· ≠ slash) = true) : slash ∉ name :=
      fun hmem => of_decide_eq_true (all_eq_true.mp hname slash hmem) rfl
    exact h.delete (hslash hcol) (hslash hdocID) hdelete
  | snapshot unix o =>
    cases hstep
    exact h.snapshot htidy
  | restart draws => exact h.restart hfitting hstep

lemma Covered.onFile {id : Bytes} (h : s.Covered) (hstored : s.kv.Stores id) : s.OnFile id := by
  obtain ⟨e,he,rfl⟩ := hstored
  obtain ⟨-,-,snapshot,hget,hid⟩ := h e he
  exact onFile_of_get hget hid

/-- After the step, if it is a restart, the index has the chunks of the stored documents and no others. -/
def RestartsFaithfully (s : Service I) (e : Event I) : Prop :=
  ∀ draws s', e = .restart draws → s.step e = some s' → s'.Faithful

end Service

def noteDocument : Document ℕ := ⟨ascii ['a'],ascii ['d'],[],[],[1],[⟨[],[7],[3]⟩],0⟩

def laterDocument : Document ℕ := ⟨ascii ['a'],ascii ['e'],[],[],[2],[⟨[],[8],[4]⟩,⟨[],[9],[5]⟩],0⟩

def exampleIndex (kind : IndexType) : VectorIndex ℕ := newVectorIndex (fun _ _ => (0 : ℕ)) kind

/-- A document is ingested and deleted, and the service is restarted. -/
def deletionEvents {I : VectorIndex ℕ} (draw : I.Draw) : List (Event I) :=
  [.ingest noteDocument .saved fun _ => draw,.delete noteDocument.col noteDocument.docID,.restart fun _ => draw]

/-- The index has a vector of the document, which is not stored. -/
def Service.revived {I : VectorIndex ℕ} (s : Service I) : Bool :=
  ((I.saveSnapshot s.index).vectors.any fun v => v.1 = chunkID noteDocument.col noteDocument.docID 0) ∧
    ¬s.kv.Stores (chunkID noteDocument.col noteDocument.docID 0)

lemma not_faithful_of_revived {I : VectorIndex ℕ} {s : Service I} (h : s.revived = true) : ¬s.Faithful := by
  obtain ⟨hindexed,hgone⟩ := of_decide_eq_true h
  exact fun hfaithful => hgone ((hfaithful _).mp (any_eq_iff_mem_names.mp hindexed))

end TitanKV.Services.Rag
