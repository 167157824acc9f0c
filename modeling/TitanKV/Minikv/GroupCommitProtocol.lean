import TitanKV.Minikv.GroupCommit

/-! How calls of `write` change hands in a group commit: who leads, who sleeps, whose batch is queued
and whose was handed to `doWriteGroup`. -/
namespace TitanKV.Minikv
open List Function Option
namespace Writers
variable {s s' : Writers}

/-- A call that has not been processed is asleep. -/
def Asleep (s : Writers) (call : ℕ) (batch : WriteBatch) : Prop :=
  s.calls call = some ⟨batch,none,.following⟩ ∨ s.calls call = some ⟨batch,none,.leading⟩

/-- What holds of the calls, the queue and the group between any two steps. -/
structure Protocol (s : Writers) : Prop where
  once : (s.handed.map Reservation.call ++ s.groupEntries.map QueuedWrite.call).Nodup
  known : ∀ call w, s.calls call = some w →
    call ∈ s.handed.map Reservation.call ∨ call ∈ s.groupEntries.map QueuedWrite.call
  queued : ∀ q ∈ s.groupEntries, s.Asleep q.call q.batch
  active : s.leaderActive = true ↔ s.groupEntries ≠ []
  leader : ∀ q, s.groupEntries.head? = some q → s.calls q.call = some ⟨q.batch,none,.leading⟩
  leading : ∀ call w, s.calls call = some w → w.state = .leading →
    s.groupEntries.head?.map QueuedWrite.call = some call ∨ ∃ c, s.commit = some c ∧ c.leader = call
  locked : s.commit ≠ none → s.groupEntries = []
  committing : ∀ c, s.commit = some c →
    c.leader ∈ c.batches.map Reservation.call ∧ ∀ r ∈ c.batches, s.Asleep r.call r.batch
  finished : ∀ c ∈ s.history, ∀ r ∈ c.batches,
    s.calls r.call = some ⟨r.batch,some c.status,.following⟩ ∨
      s.calls r.call = some ⟨r.batch,some c.status,.returned c.status⟩

lemma map_call_reserve (seq : ℕ) (queue : List QueuedWrite) :
    (reserve seq queue).map Reservation.call = queue.map QueuedWrite.call := by
  induction queue generalizing seq with
  | nil => rfl
  | cons q queue ih => rw [reserve,map_cons,map_cons,ih]

lemma mem_reserve {seq : ℕ} {queue : List QueuedWrite} {r : Reservation} (h : r ∈ reserve seq queue) :
    ∃ q ∈ queue, r.call = q.call ∧ r.batch = q.batch := by
  induction queue generalizing seq with
  | nil => cases h
  | cons q queue ih =>
    rcases mem_cons.mp h with rfl | h
    · exact ⟨q,by simp,rfl,rfl⟩
    · obtain ⟨q',hq',hr⟩ := ih h
      exact ⟨q',by simp [hq'],hr⟩

namespace Protocol

lemma handed_of_none (h : s.commit = none) : s.handed = s.history.flatMap Commit.batches := by
  rw [handed,commits,h]
  simp

variable {call : ℕ}

section
variable (h : s.Protocol)
include h

lemma fresh (hcall : s.calls call = none) :
    call ∉ s.handed.map Reservation.call ++ s.groupEntries.map QueuedWrite.call := by
  intro hmem
  have hsome : (s.calls call).isSome = true := by
    rcases mem_append.mp hmem with hmem | hmem
    · obtain ⟨r,hr,rfl⟩ := mem_map.mp hmem
      obtain ⟨c,hc,hrc⟩ := mem_flatMap.mp hr
      rcases mem_append.mp hc with hc | hc
      · rcases h.finished c hc r hrc with hw | hw <;> rw [hw] <;> rfl
      · rcases (h.committing c (by simpa using hc)).2 r hrc with hw | hw <;> rw [hw] <;> rfl
    · obtain ⟨q,hq,rfl⟩ := mem_map.mp hmem
      rcases h.queued q hq with hw | hw <;> rw [hw] <;> rfl
  rw [hcall] at hsome
  cases hsome

theorem join (batch : WriteBatch) (sync : Bool) (hcommit : s.commit = none)
    (hcall : s.calls call = none) : (s.join call batch sync).Protocol := by
  have hfresh := h.fresh hcall
  have hother : ∀ call', call' ∈ s.handed.map Reservation.call ++ s.groupEntries.map QueuedWrite.call →
      ∀ w, Function.update s.calls call w call' = s.calls call' := by
    rintro call' hmem w
    refine update_of_ne ?_ _ _
    rintro rfl
    exact hfresh hmem
  have hqueue : ∀ q ∈ s.groupEntries, q.call ∈
      s.handed.map Reservation.call ++ s.groupEntries.map QueuedWrite.call :=
    fun q hq => mem_append_right _ (mem_map_of_mem hq)
  have hinactive : s.groupEntries = [] → s.leaderActive = false := by
    intro hnil
    rw [← Bool.not_eq_true,h.active]
    exact fun hne => hne hnil
  refine ⟨?_,?_,?_,by simp [Writers.join],?_,?_,fun hne => (hne hcommit).elim,?_,?_⟩
  · change (s.handed.map Reservation.call ++ (s.groupEntries++[_]).map QueuedWrite.call).Nodup
    rw [map_append,← append_assoc,nodup_append]
    refine ⟨h.once,nodup_singleton _,?_⟩
    rintro x hx y hy rfl
    rw [map_singleton,mem_singleton] at hy
    rw [hy] at hx
    exact hfresh hx
  · intro call' w hw
    change call' ∈ s.handed.map Reservation.call ∨ call' ∈ (s.groupEntries++[_]).map QueuedWrite.call
    by_cases heq : call' = call
    · exact .inr (by simp [heq])
    · dsimp only [Writers.join] at hw
      rw [update_of_ne heq] at hw
      exact (h.known call' w hw).imp_right fun hmem => by simpa using .inl (by simpa using hmem)
  · intro q hq
    rcases mem_append.mp hq with hq | hq
    · have hold := h.queued q hq
      rw [Asleep] at hold ⊢
      dsimp only [Writers.join]
      rwa [hother _ (hqueue q hq)]
    · rw [mem_singleton.mp hq,Asleep]
      dsimp only [Writers.join]
      cases s.leaderActive <;> simp
  · intro q hq
    cases hentries : s.groupEntries with
    | nil =>
      dsimp only [Writers.join] at hq ⊢
      rw [hentries,nil_append,head?_singleton] at hq
      rw [← some.inj hq,update_self,hinactive hentries]
      rfl
    | cons q' queue =>
      dsimp only [Writers.join] at hq ⊢
      rw [hentries,cons_append,head?_cons] at hq
      obtain rfl := some.inj hq
      rw [hother _ (hqueue q' (by rw [hentries]; simp))]
      exact h.leader q' (by rw [hentries]; rfl)
  · intro call' w hw hleading
    dsimp only [Writers.join] at hw ⊢
    refine .inl ?_
    by_cases heq : call' = call
    · subst heq
      rw [update_self] at hw
      obtain rfl := some.inj hw
      cases hentries : s.groupEntries with
      | nil => rfl
      | cons q queue =>
        have hactive := h.active.mpr (by rw [hentries]; simp)
        simp [hactive] at hleading
    · rw [update_of_ne heq] at hw
      rcases h.leading call' w hw hleading with hhead | ⟨c,hc,-⟩
      · cases hentries : s.groupEntries with
        | nil => simp [hentries] at hhead
        | cons q queue => simpa [hentries] using hhead
      · rw [hcommit] at hc
        cases hc
  · intro c hc
    cases hcommit.symm.trans hc
  · intro c hc r hr
    dsimp only [Writers.join]
    rw [hother _ (mem_append_left _ (mem_map_of_mem (mem_flatMap.mpr
      ⟨c,mem_append_left _ hc,hr⟩)))]
    exact h.finished c hc r hr

theorem lead {w : WriteCall} (header payload : WriteOutcome) (synced : Bool)
    (hcommit : s.commit = none) (hw : s.calls call = some w) (hleading : w.state = .leading) :
    (s.beginCommit call header payload synced).Protocol := by
  have hhead : s.groupEntries.head?.map QueuedWrite.call = some call := by
    rcases h.leading call w hw hleading with hhead | ⟨c,hc,-⟩
    · exact hhead
    · rw [hcommit] at hc
      cases hc
  have hcalls : (s.beginCommit call header payload synced).handed.map Reservation.call =
      s.handed.map Reservation.call ++ s.groupEntries.map QueuedWrite.call := by
    rw [handed_of_none hcommit,handed,commits,beginCommit]
    simp [map_call_reserve]
  refine ⟨?_,?_,fun q hq => (by cases hq),by simp [beginCommit],fun q hq => (by cases hq),?_,
    fun _ => rfl,?_,h.finished⟩
  · rw [hcalls]
    simpa [beginCommit] using h.once
  · intro call' w' hw'
    rw [hcalls]
    exact .inl (mem_append.mpr (h.known call' w' hw'))
  · intro call' w' hw' hleading'
    refine .inr ⟨_,rfl,?_⟩
    rcases h.leading call' w' hw' hleading' with hhead' | ⟨c,hc,-⟩
    · exact some.inj (hhead.symm.trans hhead')
    · rw [hcommit] at hc
      cases hc
  · intro c hc
    obtain rfl := some.inj hc
    refine ⟨?_,?_⟩
    · rw [map_call_reserve]
      obtain ⟨q,hq,rfl⟩ := map_eq_some_iff.mp hhead
      exact mem_map_of_mem (mem_of_mem_head? hq)
    · intro r hr
      obtain ⟨q,hq,hcall,hbatch⟩ := mem_reserve hr
      rw [hcall,hbatch]
      exact h.queued q hq

theorem insert {c : Commit} (hc : s.commit = some c) (seq : ℕ) (op : BatchOp)
    (todo : List (ℕ × BatchOp)) : (s.insertOp c seq op todo).Protocol := by
  have hhanded : (s.history++[{ c with todo := todo }]).flatMap Commit.batches = s.handed := by
    rw [handed,commits,hc]
    simp
  have honce := h.once
  have hknown := h.known
  rw [← hhanded] at honce hknown
  refine { h with
    once := honce, known := hknown, leading := ?_, locked := fun _ => h.locked (by simp [hc]), committing := ?_ }
  · intro call w hw hleading
    refine (h.leading call w hw hleading).imp_right ?_
    rintro ⟨c',hc',hleader⟩
    rw [hc] at hc'
    obtain rfl := some.inj hc'
    exact ⟨_,rfl,hleader⟩
  · intro c' hc'
    obtain rfl := some.inj hc'
    exact h.committing c hc

lemma settle {c : Commit} (hc : s.commit = some c) : (s.settle c).Protocol := by
  have hqueue : s.groupEntries = [] := h.locked (by simp [hc])
  obtain ⟨hleader,hasleep⟩ := h.committing c hc
  have hhanded : (s.settle c).handed = s.handed := by
    rw [handed,handed,commits,commits,Writers.settle,hc]
    simp
  have hinside : ∀ {call : ℕ}, (c.batches.any fun r => r.call = call) = true ↔
      call ∈ c.batches.map Reservation.call := by
    intro call
    simp
  have honly : ∀ call w, s.calls call = some w → w.state = .leading → call = c.leader := by
    intro call w hw hleading
    rcases h.leading call w hw hleading with hhead | ⟨c',hc',hcall⟩
    · simp [hqueue] at hhead
    · rw [hc] at hc'
      obtain rfl := some.inj hc'
      exact hcall.symm
  refine ⟨?_,?_,?_,?_,?_,?_,fun hne => (hne rfl).elim,fun c' hc' => (by cases hc'),?_⟩
  · rw [hhanded]
    exact h.once
  · intro call w hw
    obtain ⟨w',hw',-⟩ := map_eq_some_iff.mp hw
    rw [hhanded]
    exact h.known call w' hw'
  · intro q hq
    change q ∈ s.groupEntries at hq
    rw [hqueue] at hq
    cases hq
  · exact h.active
  · intro q hq
    change s.groupEntries.head? = some q at hq
    rw [hqueue] at hq
    cases hq
  · intro call w hw hleading
    obtain ⟨w',hw',rfl⟩ := map_eq_some_iff.mp hw
    dsimp only at hleading
    split at hleading
    · cases hleading
    · rename_i hne
      exact (hne (honly call w' hw' hleading)).elim
  · intro c' hc' r hr
    rcases mem_append.mp hc' with hold | hnew
    · -- an older group has no call in common with this one
      have hout : r.call ∉ c.batches.map Reservation.call := by
        have hnodup := h.once
        rw [handed,commits,hc,flatMap_append,map_append,append_assoc] at hnodup
        intro hin
        refine (nodup_append.mp hnodup).2.2 r.call
          (mem_map_of_mem (mem_flatMap.mpr ⟨c',hold,hr⟩)) r.call ?_ rfl
        exact mem_append_left _ (by simpa using hin)
      have hsame : (s.settle c).calls r.call = s.calls r.call := by
        have hne : r.call ≠ c.leader := fun heq => hout (heq ▸ hleader)
        simp only [Writers.settle,hinside,if_neg hout,if_neg hne]
        cases s.calls r.call <;> rfl
      rw [hsame]
      exact h.finished c' hold r hr
    · obtain rfl := mem_singleton.mp hnew
      have hin : r.call ∈ c'.batches.map Reservation.call := mem_map_of_mem hr
      simp only [Writers.settle,hinside,if_pos hin]
      by_cases heq : r.call = c'.leader
      · rcases hasleep r hr with hw | hw
        · exact .inr (by simp [heq ▸ hw,heq])
        · exact .inr (by simp [heq ▸ hw,heq])
      · rcases hasleep r hr with hw | hw
        · exact .inl (by simp [hw,heq])
        · exact (heq (honly _ _ hw rfl)).elim

lemma maybeFlush (opened : Bool) : (s.maybeFlush opened).Protocol := by
  rw [Writers.maybeFlush]
  split
  · exact h
  · exact { h with }

end

lemma commit_maybeFlush (s : Writers) (opened : Bool) : (s.maybeFlush opened).commit = s.commit := by
  rw [Writers.maybeFlush]
  split <;> rfl

theorem wake (h : s.Protocol) {batch : WriteBatch} {status : Status} (hcommit : s.commit = none)
    (hw : s.calls call = some ⟨batch,some status,.following⟩) : (s.wakeUp call batch status).Protocol := by
  have hother : ∀ {call' : ℕ} {w : WriteCall}, s.calls call' = some w → w.result = none →
      ∀ x, Function.update s.calls call x call' = s.calls call' := by
    intro call' w hw' hnone x
    refine update_of_ne ?_ _ _
    rintro rfl
    rw [hw] at hw'
    obtain rfl := some.inj hw'
    cases hnone
  refine ⟨h.once,?_,?_,h.active,?_,?_,h.locked,fun c hc => ?_,?_⟩
  · intro call' w' hw'
    dsimp only [Writers.wakeUp] at hw'
    by_cases heq : call' = call
    · rw [heq]
      exact h.known call _ hw
    · rw [update_of_ne heq] at hw'
      exact h.known call' w' hw'
  · intro q hq
    rw [Asleep]
    dsimp only [Writers.wakeUp]
    rcases h.queued q hq with hw' | hw'
    · rw [hother hw' rfl]
      exact .inl hw'
    · rw [hother hw' rfl]
      exact .inr hw'
  · intro q hq
    have hw' := h.leader q hq
    dsimp only [Writers.wakeUp]
    rwa [hother hw' rfl]
  · intro call' w' hw' hleading
    dsimp only [Writers.wakeUp] at hw'
    by_cases heq : call' = call
    · rw [heq,update_self] at hw'
      obtain rfl := some.inj hw'
      cases hleading
    · rw [update_of_ne heq] at hw'
      exact h.leading call' w' hw' hleading
  · cases hcommit.symm.trans hc
  · intro c hc r hr
    dsimp only [Writers.wakeUp]
    by_cases heq : r.call = call
    · have hold := h.finished c hc r hr
      rw [heq,hw] at hold
      rw [heq,update_self]
      rcases hold with hold | hold
      · obtain ⟨rfl,rfl⟩ : batch = r.batch ∧ status = c.status := by simpa using hold
        exact .inr rfl
      · simp at hold
    · rw [update_of_ne heq]
      exact h.finished c hc r hr

theorem hold (h : s.Protocol) (reader : ℕ) : (s.hold reader).Protocol :=
  { h with }

theorem step (h : s.Protocol) (hstep : s.Step s') : s'.Protocol := by
  cases hstep with
  | join free new => exact h.join _ _ free new
  | lead free called leading => exact h.lead _ _ _ free called leading
  | insert busy next => exact h.insert busy _ _ _
  | flush busy applied ok => exact settle (h.maybeFlush _) (by rw [commit_maybeFlush,busy])
  | abort busy applied failed => exact h.settle busy
  | wake free done => exact h.wake free done
  | sleep => exact h
  | hold free => exact h.hold _

theorem start (memtableSize : ℕ) (walSync : Bool) (seq : ℕ) (wal : Bytes) (memtable : MemTable) :
    (Writers.start memtableSize walSync seq wal memtable).Protocol := by
  constructor <;> simp [Writers.start,handed,commits]

/-- The batch of a call is queued, is in the group that is being written, or was in an earlier one. -/
theorem whereabouts (h : s.Protocol) {w : WriteCall} (hw : s.calls call = some w) :
    (∃ q ∈ s.groupEntries, q.call = call ∧ q.batch = w.batch ∧ s.Asleep call w.batch) ∨
    (∃ c, s.commit = some c ∧ ∃ r ∈ c.batches, r.call = call ∧ r.batch = w.batch ∧ s.Asleep call w.batch) ∨
    ∃ c ∈ s.history, ∃ r ∈ c.batches, r.call = call ∧
      (w = ⟨r.batch,some c.status,.following⟩ ∨ w = ⟨r.batch,some c.status,.returned c.status⟩) := by
  have hasleep : ∀ {batch : WriteBatch}, s.Asleep call batch → batch = w.batch := by
    rintro batch (hb | hb) <;> rw [hw] at hb <;> rw [some.inj hb]
  rcases h.known call w hw with hmem | hmem
  · obtain ⟨r,hr,rfl⟩ := mem_map.mp hmem
    obtain ⟨c,hc,hrc⟩ := mem_flatMap.mp hr
    rcases mem_append.mp hc with hc | hc
    · refine .inr (.inr ⟨c,hc,r,hrc,rfl,?_⟩)
      exact (h.finished c hc r hrc).imp (fun hf => some.inj (hw.symm.trans hf))
        fun hf => some.inj (hw.symm.trans hf)
    · have hbusy : s.commit = some c := by simpa using hc
      have hsleep := (h.committing c hbusy).2 r hrc
      exact .inr (.inl ⟨c,hbusy,r,hrc,rfl,hasleep hsleep,hasleep hsleep ▸ hsleep⟩)
  · obtain ⟨q,hq,rfl⟩ := mem_map.mp hmem
    have hsleep := h.queued q hq
    exact .inl ⟨q,hq,rfl,hasleep hsleep,hasleep hsleep ▸ hsleep⟩

end Protocol
end Writers
end TitanKV.Minikv
