import TitanKV.Services.Rag.Ingester

/-! When a task that is reported as successful stands for a document that can be searched. What minikv holds is in
order in every run: a document is stored in one batch. Its vectors are in the index as long as no step loses them. -/
namespace TitanKV.Services.Rag
open Minikv List Option Service Runs Directory

universe u

variable {F : Type u} {I : VectorIndex F}

/-- Every chunk of the document is stored, and every stored chunk of it has a vector. -/
structure Service.Searchable (s : Service I) (col docID : Bytes) : Prop where
  stored : ∃ info, s.kv.metas.get (col,docID) = some info ∧ ∀ i < info.chunkCount,
    (col,docID,(i : ℤ)) ∈ s.kv.chunks.names
  indexed : ∀ seq, (col,docID,seq) ∈ s.kv.chunks.names → chunkID col docID seq ∈ I.ids s.index

/-- What minikv holds in every run. -/
structure Kv.Filed (kv : Kv) : Prop where
  named : ∀ e ∈ kv.chunks, Named e
  owned : ∀ e ∈ kv.chunks, (e.1.1,e.1.2.1) ∈ kv.metas.names
  plainCol : ∀ e ∈ kv.metas, plain e.1.1 = true
  complete : ∀ e ∈ kv.metas, ∀ i < e.2.chunkCount, (e.1.1,e.1.2,(i : ℤ)) ∈ kv.chunks.names
  finished : ∀ e ∈ kv.tasks, e.2.status = .success → (e.2.col,e.2.docID) ∈ kv.metas.names

def Phase.written : Phase → Bool
  | .index => true
  | .markStatus => true
  | .snapshot => true
  | _ => false

/-- A task that is about to be reported as successful belongs to a stored document. -/
def Stage.Backed (kv : Kv) : Stage F → Prop
  | .ingesting phase _ d => plain d.col = true ∧ plain d.docID = true ∧
      (phase.written = true → (d.col,d.docID) ∈ kv.metas.names)
  | .closing t _ => t.status = .success → (t.col,t.docID) ∈ kv.metas.names
  | .returned (some t) _ => t.status = .success → (t.col,t.docID) ∈ kv.metas.names
  | _ => True

structure Process.Sound (p : Process I) : Prop where
  filed : p.service.kv.Filed
  backed : p.stage.Backed p.service.kv

section Stored
variable {s : Service I} {kv : Kv} {d : Document F}

lemma metas_storeDocument (s : Service I) (d : Document F) :
    (s.storeDocument d).kv.metas = s.kv.metas.set (d.col,d.docID) d.info := metas_foldl_putChunk _

lemma tasks_storeDocument (s : Service I) (d : Document F) :
    (s.storeDocument d).kv.tasks = s.kv.tasks := tasks_foldl_putChunk _

lemma mem_names_storeDocument {k : Bytes × Bytes × ℤ} :
    k ∈ (s.storeDocument d).kv.chunks.names ↔ (∃ i < d.pieces.length, (d.col,d.docID,(i : ℤ)) = k) ∨
      k ∈ s.kv.chunks.names := by
  refine mem_names_foldl_putChunk.trans (or_congr_left ⟨?_,?_⟩)
  · rintro ⟨c,hc,rfl⟩
    obtain ⟨i,hi,rfl⟩ := mem_mapIdx.mp hc
    exact ⟨i,hi,rfl⟩
  · rintro ⟨i,hi,rfl⟩
    exact ⟨_,mem_mapIdx.mpr ⟨i,hi,rfl⟩,rfl⟩

lemma Kv.Filed.empty : Kv.empty.Filed := by
  constructor <;> rintro e ⟨⟩

lemma Kv.Filed.saveTask {t : IngestTask} (h : kv.Filed)
    (ht : t.status = .success → (t.col,t.docID) ∈ kv.metas.names) :
    (kv.saveTask t).Filed := by
  refine { h with finished := fun e he => ?_ }
  obtain rfl | he := mem_of_mem_set he
  · exact ht
  · exact h.finished e he

lemma Kv.Filed.putStatus {col docID : Bytes} {status : TaskStatus} (h : kv.Filed) :
    (kv.putStatus col docID status).Filed :=
  { h with }

lemma Kv.Filed.storeDocument (h : s.kv.Filed) (hcol : plain d.col = true) (hdocID : plain d.docID = true) :
    (s.storeDocument d).kv.Filed := by
  have hmetas {k : Bytes × Bytes} : k ∈ (s.storeDocument d).kv.metas.names ↔ k = (d.col,d.docID) ∨
      k ∈ s.kv.metas.names := by
    rw [metas_storeDocument,mem_names_set]
  constructor
  · intro e he
    obtain ⟨i,hi,hrecord,hkey⟩ | hold := mem_chunks_storeDocument he
    · exact named_of_record hcol hdocID hrecord hkey
    · exact h.named e hold
  · intro e he
    obtain ⟨i,hi,hrecord,hkey⟩ | hold := mem_chunks_storeDocument he
    · exact hmetas.mpr (.inl (by rw [hkey]))
    · exact hmetas.mpr (.inr (h.owned e hold))
  · intro e he
    rw [metas_storeDocument] at he
    obtain rfl | hold := mem_of_mem_set he
    · exact hcol
    · exact h.plainCol e hold
  · intro e he i hi
    rw [metas_storeDocument] at he
    obtain rfl | hold := mem_of_mem_set he
    · exact mem_names_storeDocument.mpr (.inl ⟨i,hi,rfl⟩)
    · exact mem_names_storeDocument.mpr (.inr (h.complete e hold i hi))
  · intro e he hsuccess
    rw [tasks_storeDocument] at he
    exact hmetas.mpr (.inr (h.finished e he hsuccess))

lemma Kv.Filed.mem_of_findByHash {col hash : Bytes} {existing : DocumentMeta} (h : kv.Filed)
    (hcol : plain col = true) (hfind : kv.findByHash col hash = some existing) :
    (col,existing.docID) ∈ kv.metas.names := by
  obtain ⟨k,hk,hrange⟩ := mem_scanned.mp (mem_of_find?_eq_some hfind)
  obtain ⟨rest,heq,-⟩ := inRange_iff.mp hrange
  rw [docMetaKey,docPrefix] at heq
  simp only [append_assoc,append_cancel_left_eq,cons_append,nil_append] at heq
  have hkcol := (split_first (not_mem_of_plain (h.plainCol _ hk)).2 (not_mem_of_plain hcol).2 heq).1
  have hkey : (existing.col,existing.docID) = k := kv.filedMetas _ hk
  have hk' : (col,existing.docID) = k := by
    rw [← hkey] at hkcol ⊢
    exact congrArg (·,existing.docID) hkcol.symm
  rw [hk']
  exact mem_map_of_mem hk

lemma Kv.Filed.mem_of_listChunks {col docID : Bytes} (h : kv.Filed) (hlist : 0<(kv.listChunks col docID).length) :
    (col,docID) ∈ kv.metas.names := by
  obtain ⟨c,hc⟩ := exists_mem_of_length_pos hlist
  obtain ⟨k,hk,hrange⟩ := mem_scanned.mp hc
  obtain ⟨hcol,hdocID,seq,hseq,-⟩ := h.named _ hk
  rw [hseq] at hrange
  obtain ⟨rfl,rfl⟩ := (inRange_chunkKey (not_mem_of_plain hcol).2 (not_mem_of_plain hdocID).2).mp hrange
  exact h.owned _ hk

end Stored

def Stage.indexing : Stage F → Option (Document F)
  | .ingesting .index _ d => some d
  | _ => none

def Stage.storing : Stage F → Option (Document F)
  | .ingesting .store _ d => some d
  | _ => none

/-- A batch that is reported as failed was not executed, the vectors of a document have the length of the index, and
at a crash every stored chunk is in some file. -/
def Process.Careful (p : Process I) : Action I → Prop
  | .proceed o _ =>
    ∀ d ∈ p.stage.storing, (o.kv.applied = true → o.kv = .ok) ∧ ∀ q ∈ d.pieces, q.vec.length = I.dim p.service.index
  | .crash _ => ∀ id, p.service.kv.Stores id → p.service.OnFile id
  | .ingest _ _ => True
  | .resume _ => True

instance Process.decidableCareful (p : Process I) : ∀ a, Decidable (p.Careful a)
  | .proceed o _ => inferInstanceAs (Decidable (∀ d ∈ p.stage.storing,
      (o.kv.applied = true → o.kv = .ok) ∧ ∀ q ∈ d.pieces, q.vec.length = I.dim p.service.index))
  | .crash _ => decidable_of_iff (∀ e ∈ p.service.kv.chunks, p.service.OnFile e.2.chunkID)
      ⟨fun h _ ⟨e,he,heq⟩ => heq ▸ h e he,fun h e he => h _ ⟨e,he,rfl⟩⟩
  | .ingest _ _ => .isTrue trivial
  | .resume _ => .isTrue trivial

def Service.Settled (s : Service I) : Prop := ∀ e ∈ s.kv.chunks, e.2.chunkID ∈ I.ids s.index

/-- Between the batch of a document and its vectors, the chunks of this document are missing in the index. -/
structure Process.Indexed (p : Process I) : Prop where
  indexed : ∀ e ∈ p.service.kv.chunks, e.2.chunkID ∈ I.ids p.service.index ∨ ∃ d, p.stage.indexing = some d ∧
    e.2 ∈ d.records
  fits : ∀ d, p.stage.indexing = some d → ∀ q ∈ d.pieces, q.vec.length = I.dim p.service.index

namespace Process
variable {s : Service I} {p p' : Process I} {stage : Stage F} {taskID : Bytes} {d : Document F} {o : Outcome}
  {draws : ℕ → I.Draw}

@[simp] lemma metas_saveTask (s : Service I) (t : IngestTask) (o : KvOutcome) :
    (s.saveTask t o).kv.metas = s.kv.metas := by
  rw [saveTask]
  split <;> rfl

variable {t : IngestTask}

lemma filed_saveTask {o : KvOutcome} (h : s.kv.Filed)
    (ht : t.status = .success → (t.col,t.docID) ∈ s.kv.metas.names) :
    (s.saveTask t o).kv.Filed := by
  rw [saveTask]
  split
  · exact h.saveTask ht
  · exact h

lemma backed_failTask (kv : Kv) (t : IngestTask) (msg : Bytes) : (Stage.failTask t msg : Stage F).Backed kv := by
  rintro ⟨⟩

lemma embed_cases {failure : Option (ℕ × Bytes)} {stage : Stage F} (h : embed taskID d failure = some stage) :
    stage = .ingesting .store taskID d ∨ ∃ msg, stage = .failTask (d.task taskID .running 0 []) msg := by
  cases failure with
  | none =>
    cases h
    exact .inl rfl
  | some failure =>
    simp only [embed,ite_none_right_eq_some,some.injEq] at h
    exact .inr ⟨_,h.2.symm⟩

lemma backed_deduplicate {o : KvOutcome} (h : s.kv.Filed) (hcol : plain d.col = true)
    (hdocID : plain d.docID = true) :
    (deduplicate s taskID d o).Backed s.kv := by
  have hstart : (Stage.ingesting .start taskID d).Backed s.kv := ⟨hcol,hdocID,by rintro ⟨⟩⟩
  cases o with
  | failed applied err => exact hstart
  | ok =>
    rw [deduplicate]
    split
    · exact hstart
    · rename_i existing hfind
      exact fun _ => h.mem_of_findByHash hcol hfind

lemma backed_load {o : KvOutcome} (h : s.kv.Filed) : (load s taskID o).Backed s.kv := by
  cases o with
  | failed applied err => trivial
  | ok =>
    rw [load]
    split
    · trivial
    · rename_i t hload
      split
      · obtain ⟨e,he,rfl⟩ := map_eq_some_iff.mp hload
        exact h.finished e (mem_of_find?_eq_some he)
      · trivial

lemma backed_inspect {o : KvOutcome} (h : s.kv.Filed) : (inspect s taskID t o).Backed s.kv := by
  rw [inspect]
  split
  · rename_i hlist
    exact fun _ => h.mem_of_listChunks hlist.2
  · rintro ⟨⟩

lemma Sound.orFail {after : Service I} {next : Phase} {o : KvOutcome} (h : s.kv.Filed) (hafter : after.kv.Filed)
    (hnext : (Stage.ingesting next taskID d).Backed after.kv) : (orFail s after next taskID d o).Sound := by
  cases o with
  | ok => exact ⟨hafter,hnext⟩
  | failed applied err =>
    refine ⟨?_,backed_failTask _ _ _⟩
    cases applied with
    | true => exact hafter
    | false => exact h

variable {n : ℕ}

lemma fitting_saveTask {o : KvOutcome} (h : s.Fitting n) : (s.saveTask t o).Fitting n := by
  rw [saveTask]
  split
  · exact { h with }
  · exact h

lemma fitting_orFail {after : Service I} {next : Phase} {o : KvOutcome} (h : s.Fitting n)
    (hafter : after.Fitting n) :
    (orFail s after next taskID d o).service.Fitting n := by
  cases o with
  | ok => exact hafter
  | failed applied err =>
    cases applied with
    | true => exact hafter
    | false => exact h

lemma Indexed.settled (h : p.Indexed) (hstage : p.stage.indexing = none) : p.service.Settled := by
  intro e he
  obtain hid | ⟨d,hd,-⟩ := h.indexed e he
  · exact hid
  · rw [hstage] at hd
    cases hd

lemma Indexed.of_settled (h : s.Settled) (hstage : stage.indexing = none) : Indexed ⟨s,stage⟩ := by
  refine ⟨fun e he => .inl (h e he),fun d hd => ?_⟩
  rw [show stage.indexing = some d from hd] at hstage
  cases hstage

lemma settled_saveTask {t : IngestTask} {o : KvOutcome} (h : s.Settled) : (s.saveTask t o).Settled := by
  rw [saveTask]
  split <;> exact h

lemma settled_saveSnapshot {col : Bytes} {o : SaveOutcome} (h : s.Settled) : (s.saveSnapshot col o).Settled := by
  cases o <;> exact h

lemma indexing_deduplicate (s : Service I) (taskID : Bytes) (d : Document F) (o : KvOutcome) :
    (deduplicate s taskID d o).indexing = none := by
  cases o with
  | failed applied err => rfl
  | ok =>
    rw [deduplicate]
    split <;> rfl

lemma indexing_load (s : Service I) (taskID : Bytes) (o : KvOutcome) : (load s taskID o).indexing = none := by
  cases o with
  | failed applied err => rfl
  | ok =>
    rw [load]
    split
    · rfl
    · split <;> rfl

lemma indexing_inspect (s : Service I) (taskID : Bytes) (t : IngestTask) (o : KvOutcome) :
    (inspect s taskID t o).indexing = none := by
  rw [inspect]
  split <;> rfl

lemma Indexed.store (h : s.Settled) (hfits : ∀ q ∈ d.pieces, q.vec.length = I.dim s.index) :
    Indexed ⟨s.storeDocument d,.ingesting .index taskID d⟩ := by
  refine ⟨fun e he => ?_,?_⟩
  · obtain ⟨i,hi,hrecord,-⟩ | hold := mem_chunks_storeDocument he
    · exact .inr ⟨d,rfl,mem_mapIdx.mpr ⟨i,hi,hrecord.symm⟩⟩
    · exact .inl (h e hold)
  · rintro d' ⟨⟩
    exact hfits

lemma Indexed.addVectors {added : Service I} (h : Indexed ⟨s,.ingesting .index taskID d⟩)
    (hadd : s.addVectors d draws = some added) :
    added.Settled := by
  have hids := mem_ids_addVectors hadd
  obtain ⟨index,-,rfl⟩ := map_eq_some_iff.mp hadd
  intro e he
  rw [hids]
  obtain hid | ⟨d',hd,hrecord⟩ := h.indexed e he
  · exact .inr hid
  · obtain rfl : d = d' := some.inj hd
    obtain ⟨i,hi,hrecord⟩ := mem_mapIdx.mp hrecord
    exact .inl ⟨i,hi,h.fits d rfl _ (getElem_mem hi),by rw [← hrecord]; rfl⟩

lemma Indexed.orFail {after : Service I} {next : Phase} {o : KvOutcome} (h : s.Settled) (hafter : after.Settled)
    (hnext : next ≠ .index) : (orFail s after next taskID d o).Indexed := by
  cases o with
  | ok => exact .of_settled hafter (by cases next <;> first | rfl | exact absurd rfl hnext)
  | failed applied err =>
    refine .of_settled ?_ rfl
    cases applied with
    | true => exact hafter
    | false => exact h

/-- What every step keeps up, and what a careful one does. -/
structure Kept (n : ℕ) (p : Process I) (a : Action I) (p' : Process I) : Prop where
  sound : p'.Sound
  fitting : p'.service.Fitting n
  indexed : p.Careful a → p.Indexed → p'.Indexed

section Kept
variable {stage' : Stage F} {a : Action I} (h : s.kv.Filed) (hfit : s.Fitting n)
include h hfit

lemma Kept.idle (hstage : stage.indexing = none) (hbacked : stage'.Backed s.kv) (hstage' : stage'.indexing = none) :
    Kept n ⟨s,stage⟩ a ⟨s,stage'⟩ :=
  ⟨⟨h,hbacked⟩,hfit,fun _ hindexed => .of_settled (hindexed.settled hstage) hstage'⟩

lemma Kept.saveTask {o : KvOutcome} (hstage : stage.indexing = none)
    (ht : t.status = .success → (t.col,t.docID) ∈ s.kv.metas.names) (hbacked : stage'.Backed (s.saveTask t o).kv)
    (hstage' : stage'.indexing = none) : Kept n ⟨s,stage⟩ a ⟨s.saveTask t o,stage'⟩ :=
  ⟨⟨filed_saveTask h ht,hbacked⟩,fitting_saveTask hfit,
    fun _ hindexed => .of_settled (settled_saveTask (hindexed.settled hstage)) hstage'⟩

lemma Kept.ingestStep {phase : Phase} (hbacked : (Stage.ingesting phase taskID d).Backed s.kv)
    (hstep : ingestStep s o draws taskID d phase = some p') :
    Kept n ⟨s,.ingesting phase taskID d⟩ (.proceed o draws) p' := by
  obtain ⟨hcol,hdocID,hwritten⟩ := hbacked
  cases phase with
  | create | start =>
    cases hstep
    exact .saveTask h hfit rfl (by rintro ⟨⟩) ⟨hcol,hdocID,by rintro ⟨⟩⟩ rfl
  | deduplicate =>
    cases hstep
    exact .idle h hfit rfl (backed_deduplicate h hcol hdocID) (indexing_deduplicate ..)
  | embed =>
    rw [Process.ingestStep] at hstep
    split at hstep
    · cases hstep
      exact .idle h hfit rfl (backed_failTask _ _ _) rfl
    · obtain ⟨stage,hembed,rfl⟩ := map_eq_some_iff.mp hstep
      obtain rfl | ⟨msg,rfl⟩ := embed_cases hembed
      · exact .idle h hfit rfl ⟨hcol,hdocID,by rintro ⟨⟩⟩ rfl
      · exact .idle h hfit rfl (backed_failTask _ _ _) rfl
  | store =>
    cases hstep
    refine ⟨Sound.orFail h (h.storeDocument hcol hdocID) ⟨hcol,hdocID,fun _ => ?_⟩,
      fitting_orFail hfit { hfit with },fun hcareful hindexed => ?_⟩
    · rw [metas_storeDocument,mem_names_set]
      exact .inl rfl
    · obtain ⟨hreported,hfits⟩ := hcareful d rfl
      cases ho : o.kv with
      | ok => exact .store (hindexed.settled rfl) hfits
      | failed applied err =>
        rw [ho] at hreported
        cases applied with
        | true => cases hreported rfl
        | false => exact .of_settled (hindexed.settled rfl) rfl
  | index =>
    obtain ⟨added,hadd,rfl⟩ := map_eq_some_iff.mp hstep
    refine ⟨?_,hfit.addVectors hadd,fun _ hindexed => .of_settled (hindexed.addVectors hadd) rfl⟩
    obtain ⟨index,-,rfl⟩ := map_eq_some_iff.mp hadd
    exact ⟨h,hcol,hdocID,fun _ => hwritten rfl⟩
  | markStatus =>
    cases hstep
    exact ⟨Sound.orFail h h.putStatus ⟨hcol,hdocID,fun _ => hwritten rfl⟩,
      fitting_orFail hfit { hfit with },
      fun _ hindexed => .orFail (hindexed.settled rfl) (hindexed.settled rfl) (by rintro ⟨⟩)⟩
  | snapshot =>
    cases hstep
    refine ⟨?_,hfit.saveSnapshot,fun _ hindexed => .of_settled (settled_saveSnapshot (hindexed.settled rfl)) rfl⟩
    cases o.save <;> exact ⟨h,fun _ => hwritten rfl⟩

end Kept

lemma indexing_of_ready (h : ready stage = true) : stage.indexing = none := by
  cases stage <;> first | rfl | cases h

lemma Sound.kept {a : Action I} (h : p.Sound) (hfit : p.service.Fitting n) (hstep : p.step a = some p') :
    Kept n p a p' := by
  obtain ⟨s,stage⟩ := p
  obtain ⟨hfiled,hbacked⟩ := h
  cases a with
  | ingest taskID d =>
    simp only [Process.step,ite_none_right_eq_some,some.injEq] at hstep
    obtain ⟨⟨hready,hcol,hdocID⟩,rfl⟩ := hstep
    exact .idle hfiled hfit (indexing_of_ready hready) ⟨plain_of_ensureColName hcol,hdocID,by rintro ⟨⟩⟩ rfl
  | resume taskID =>
    simp only [Process.step,ite_none_right_eq_some,some.injEq] at hstep
    obtain ⟨hready,rfl⟩ := hstep
    exact .idle hfiled hfit (indexing_of_ready hready) trivial rfl
  | crash draws =>
    obtain ⟨restarted,hrestart,rfl⟩ := map_eq_some_iff.mp hstep
    have hids := mem_ids_restart hfit hrestart
    have hfit' := hfit.restart hrestart
    obtain ⟨index,-,rfl⟩ := map_eq_some_iff.mp hrestart
    refine ⟨⟨hfiled,trivial⟩,hfit',fun hcareful _ => .of_settled (fun e he => ?_) rfl⟩
    rw [hids]
    exact hcareful _ ⟨e,he,rfl⟩
  | proceed o draws =>
    cases stage with
    | idle | returned t err => cases hstep
    | ingesting phase taskID d => exact .ingestStep hfiled hfit hbacked hstep
    | loading taskID =>
      cases hstep
      exact .idle hfiled hfit rfl (backed_load hfiled) (indexing_load ..)
    | inspecting taskID t =>
      cases hstep
      exact .idle hfiled hfit rfl (backed_inspect hfiled) (indexing_inspect ..)
    | closing t err =>
      cases hstep
      exact .saveTask hfiled hfit rfl hbacked (by simpa [Stage.Backed] using hbacked) rfl

lemma kept_of_run {dim : ℕ} {actions : List (Action I)} (hrun : Runs.run step (init I dim) actions = some p) :
    p.Sound ∧ (Meets step Careful (init I dim) actions → p.Indexed) := by
  have hkeep (p : Process I) (a : Action I) (p' : Process I) (hinv : p.Sound ∧ p.service.Fitting dim)
    (hstep : p.step a = some p') :
      p'.Sound ∧ p'.service.Fitting dim := ⟨(hinv.1.kept hinv.2 hstep).sound,(hinv.1.kept hinv.2 hstep).fitting⟩
  have hinit : (init I dim).Sound ∧ (init I dim).service.Fitting dim := ⟨⟨Kv.Filed.empty,trivial⟩,.init I dim⟩
  have hcarefully (p : Process I) (a : Action I) (p' : Process I)
      (hinv : (p.Sound ∧ p.service.Fitting dim) ∧ p.Indexed) (hc : p.Careful a) (hstep : p.step a = some p') :
      (p'.Sound ∧ p'.service.Fitting dim) ∧ p'.Indexed :=
    ⟨hkeep p a p' hinv.1 hstep,(hinv.1.1.kept hinv.1.2 hstep).indexed hc hinv.2⟩
  refine ⟨(invariant (C := fun _ _ => True) (fun p a p' h _ => hkeep p a p' h)
    (meets_of_forall fun _ _ _ => trivial) hrun hinit).1,fun hcareful => ?_⟩
  exact (invariant hcarefully hcareful hrun ⟨hinit,.of_settled (by rintro e ⟨⟩) rfl⟩).2

/-- In every run, a task that is returned as successful belongs to a document whose record and chunks are stored. -/
theorem stored_of_success {dim : ℕ} {actions : List (Action I)} {err : Option Bytes}
    (hrun : Runs.run step (init I dim) actions = some p) (hreturned : p.stage = .returned (some t) err)
    (hsuccess : t.status = .success) :
    ∃ info, p.service.kv.metas.get (t.col,t.docID) = some info ∧
      ∀ i < info.chunkCount, (t.col,t.docID,(i : ℤ)) ∈ p.service.kv.chunks.names := by
  have hsound := (kept_of_run hrun).1
  have hmem : (t.col,t.docID) ∈ p.service.kv.metas.names := by
    have hbacked := hsound.backed
    rw [hreturned] at hbacked
    exact hbacked hsuccess
  cases hget : p.service.kv.metas.get (t.col,t.docID) with
  | none => exact absurd hmem (get_eq_none_iff.mp hget)
  | some info =>
    obtain ⟨e,he,rfl⟩ := map_eq_some_iff.mp hget
    have hkey : e.1 = (t.col,t.docID) := by simpa using find?_some he
    refine ⟨_,rfl,fun i hi => ?_⟩
    have hcomplete := hsound.filed.complete e (mem_of_find?_eq_some he) i hi
    rwa [hkey] at hcomplete

end Process

def everythingWorks : Outcome := ⟨.ok,none,.saved⟩

def ingestActions (draw : I.Draw) (taskID : Bytes) (d : Document F) (n : ℕ) : List (Action I) :=
  .ingest taskID d::replicate n (.proceed everythingWorks fun _ => draw)

/-- The process dies after the first `n` steps of an ingest, and the same text is ingested again. -/
def crashAndRepeat {I : VectorIndex ℕ} (draw : I.Draw) (n : ℕ) : List (Action I) :=
  ingestActions draw [1] noteDocument n ++ .crash (fun _ => draw)::ingestActions draw [2] noteDocument 3

/-- The second ingest has found the document of the first. -/
def Process.repeated {I : VectorIndex ℕ} (p : Process I) : Bool :=
  p.stage = .returned (some (noteDocument.task [2] .success 100 [])) none

/-- The chunk of the document is stored and the index is empty. -/
def Process.unsearchable {I : VectorIndex ℕ} (p : Process I) : Bool :=
  p.repeated ∧ (noteDocument.col,noteDocument.docID,0) ∈ p.service.kv.chunks.names ∧ I.ids p.service.index = []

lemma not_searchable_of_unsearchable {I : VectorIndex ℕ} {p : Process I} (h : p.unsearchable = true) :
    ∃ t, p.stage = .returned (some t) none ∧ t.status = .success ∧ ¬p.service.Searchable t.col t.docID := by
  obtain ⟨hrepeated,hstored,hindex⟩ := of_decide_eq_true h
  refine ⟨_,of_decide_eq_true hrepeated,rfl,fun hsearchable => ?_⟩
  have hmem := hsearchable.indexed 0 hstored
  rw [hindex] at hmem
  cases hmem

-- vectors of another length than the index has
example : (Runs.run Process.step (Process.init (exampleIndex .brute) 2) (ingestActions () [1] noteDocument 9)).map
      (fun p => (p.stage,(exampleIndex .brute).ids p.service.index)) =
    some (.returned (some (noteDocument.task [1] .success 100 [])) none,[]) := by decide +kernel

-- a batch whose answer is lost, and a resumed task
example : (Runs.run Process.step (Process.init (exampleIndex .brute) 1) (ingestActions () [1] noteDocument 4 ++
      [.proceed ⟨.failed true [],none,.saved⟩ fun _ => (),.proceed everythingWorks fun _ => (),.resume [1]] ++
      replicate 3 (.proceed everythingWorks fun _ => ()))).map
      (fun p => (p.stage,(exampleIndex .brute).ids p.service.index)) =
    some (.returned (some (noteDocument.task [1] .success 100 [])) none,[]) := by decide +kernel

end TitanKV.Services.Rag
