import TitanKV.Services.Rag.Snapshots

/-! `Ingest` and `ResumeIngest`, one call of minikv, of the embedder, of the index or of the file system at a time.
A crash loses the call and the index in memory; what minikv and the files hold is left. -/
namespace TitanKV.Services.Rag
open Minikv

universe u

/-- A call of minikv that reports an error may still have been executed. -/
inductive KvOutcome
  | ok
  | failed (applied : Bool) (err : Bytes)
  deriving DecidableEq,Repr

def KvOutcome.applied : KvOutcome → Bool
  | .ok => true
  | .failed applied _ => applied

/-- How the calls of a step end: the answer of minikv, the chunk that the embedder fails at, the snapshot file. -/
structure Outcome where
  kv : KvOutcome
  embed : Option (ℕ × Bytes)
  save : SaveOutcome
  deriving DecidableEq,Repr

/-- The call that `Ingest` makes next. -/
inductive Phase
  | create
  | deduplicate
  | start
  | embed
  | store
  | index
  | markStatus
  | snapshot
  deriving DecidableEq,Repr

inductive Stage (F : Type u)
  | idle
  | ingesting (phase : Phase) (taskID : Bytes) (d : Document F)
  | loading (taskID : Bytes)
  | inspecting (taskID : Bytes) (t : IngestTask)
  /-- The last `SaveTask`, then the task and the error are returned. -/
  | closing (t : IngestTask) (err : Option Bytes)
  | returned (t : Option IngestTask) (err : Option Bytes)
  deriving DecidableEq

inductive Action {F : Type u} (I : VectorIndex F)
  | ingest (taskID : Bytes) (d : Document F)
  | resume (taskID : Bytes)
  | proceed (o : Outcome) (draws : ℕ → I.Draw)
  | crash (draws : ℕ → I.Draw)

structure Process {F : Type u} (I : VectorIndex F) where
  service : Service I
  stage : Stage F

variable {F : Type u} {I : VectorIndex F}

def Document.task (d : Document F) (taskID : Bytes) (status : TaskStatus) (progress : ℕ) (error : Bytes) :
    IngestTask :=
  ⟨taskID,d.col,d.docID,status,progress,error⟩

def Stage.failTask (t : IngestTask) (msg : Bytes) : Stage F :=
  .closing { t with status := .failed, error := msg } (some (ascii "ingest failed: ".toList ++ msg))

/-- The error of `SaveTask` is ignored. -/
def Service.saveTask (s : Service I) (t : IngestTask) (o : KvOutcome) : Service I :=
  if o.applied then { s with kv := s.kv.saveTask t } else s

namespace Process

def init (I : VectorIndex F) (dim : ℕ) : Process I := ⟨.init I dim,.idle⟩

/-- A scan that fails finds no document. -/
def deduplicate (s : Service I) (taskID : Bytes) (d : Document F) : KvOutcome → Stage F
  | .failed _ _ => .ingesting .start taskID d
  | .ok =>
    match s.kv.findByHash d.col d.contentHash with
    | none => .ingesting .start taskID d
    | some existing => .closing { d.task taskID .success 100 [] with docID := existing.docID } none

def embed (taskID : Bytes) (d : Document F) : Option (ℕ × Bytes) → Option (Stage F)
  | none => some (.ingesting .store taskID d)
  | some (i,err) =>
    if i<d.pieces.length then
      some (.failTask (d.task taskID .running 0 [])
        (ascii "embed chunk ".toList ++ decimal i ++ ascii ": ".toList ++ err))
    else none

/-- A call of minikv whose error ends the ingest. -/
def orFail (before after : Service I) (next : Phase) (taskID : Bytes) (d : Document F) : KvOutcome → Process I
  | .ok => ⟨after,.ingesting next taskID d⟩
  | .failed applied err => ⟨if applied then after else before,.failTask (d.task taskID .running 0 []) err⟩

def ingestStep (s : Service I) (o : Outcome) (draws : ℕ → I.Draw) (taskID : Bytes) (d : Document F) :
    Phase → Option (Process I)
  | .create => some ⟨s.saveTask (d.task taskID .pending 0 []) o.kv,.ingesting .deduplicate taskID d⟩
  | .deduplicate => some ⟨s,deduplicate s taskID d o.kv⟩
  | .start => some ⟨s.saveTask (d.task taskID .running 0 []) o.kv,.ingesting .embed taskID d⟩
  | .embed =>
    if d.pieces.length = 0 then
      some ⟨s,.failTask (d.task taskID .running 0 []) (ascii "empty document after chunking".toList)⟩
    else (embed taskID d o.embed).map fun stage => ⟨s,stage⟩
  | .store => some (orFail s (s.storeDocument d) .index taskID d o.kv)
  | .index => (s.addVectors d draws).map fun s => ⟨s,.ingesting .markStatus taskID d⟩
  | .markStatus => some (orFail s (s.finishDocument d) .snapshot taskID d o.kv)
  | .snapshot => some ⟨s.saveSnapshot d.col o.save,.closing (d.task taskID .success 100 []) none⟩

def load (s : Service I) (taskID : Bytes) : KvOutcome → Stage F
  | .failed _ err => .returned none (some err)
  | .ok =>
    match s.kv.loadTask taskID with
    | none => .returned none (some (ascii "task not found".toList))
    | some t => if t.status = .success then .returned (some t) none else .inspecting taskID t

/-- The error of `ListChunks` is ignored. -/
def inspect (s : Service I) (taskID : Bytes) (t : IngestTask) (o : KvOutcome) : Stage F :=
  if o = .ok ∧ 0<(s.kv.listChunks t.col t.docID).length then
    .closing { t with status := .success, progress := 100 } none
  else
    .closing { t with status := .pending, error := [] }
      (some (ascii "task ".toList ++ taskID ++ ascii " has no persisted chunks; re-submit document".toList))

def proceed (s : Service I) (o : Outcome) (draws : ℕ → I.Draw) : Stage F → Option (Process I)
  | .ingesting phase taskID d => ingestStep s o draws taskID d phase
  | .loading taskID => some ⟨s,load s taskID o.kv⟩
  | .inspecting taskID t => some ⟨s,inspect s taskID t o.kv⟩
  | .closing t err => some ⟨s.saveTask t o.kv,.returned (some t) err⟩
  | .idle => none
  | .returned _ _ => none

def ready : Stage F → Bool
  | .idle => true
  | .returned _ _ => true
  | _ => false

/-- The next call begins when the last one has returned. The name of the collection is checked before `Ingest` is
called, and the id of the document is drawn by `uuid`. -/
def step (p : Process I) : Action I → Option (Process I)
  | .ingest taskID d =>
    if ready p.stage ∧ ensureColName d.col ∧ plain d.docID then
      some ⟨p.service,.ingesting .create taskID d⟩
    else none
  | .resume taskID => if ready p.stage then some ⟨p.service,.loading taskID⟩ else none
  | .proceed o draws => proceed p.service o draws p.stage
  | .crash draws => (p.service.restart draws).map fun s => ⟨s,.idle⟩

end Process
end TitanKV.Services.Rag
