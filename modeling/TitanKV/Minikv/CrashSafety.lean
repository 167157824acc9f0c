import TitanKV.Minikv.CrashRecovery

/-! Crash safety over any number of sessions, each cut at any system call. Every operation
whose WAL append completed is recovered, provided no append ever starts behind a torn record:
`recover` goes on appending to the newest WAL file and does not truncate it. -/
namespace TitanKV.Minikv
open Layers CrashPoints Writer DBImpl

def opsOf (history : List Logged) : List BatchOp := history.flatMap fun l => l.group.flatten

@[simp] theorem opsOf_append (a b : List Logged) : opsOf (a++b) = opsOf a ++ opsOf b :=
  List.flatMap_append

@[simp] theorem opsOf_singleton (l : Logged) : opsOf [l] = l.group.flatten := by simp [opsOf]

lemma opsOf_orphan_writing (group : WriteGroup) (rest : List FsOp) :
    opsOf (writing group rest).orphan = (writing group rest).pending := by
  cases rest with
  | nil => exact opsOf_singleton _
  | cons op rest => rfl

def Proc.currentBytes : Proc → Bytes
  | up db _ _ => (db.disk.wals.get db.currentWal).getD []
  | _ => []

/-- A write is begun only with a group below four gigabytes and behind complete records. -/
def System.AppendsCleanly (s : System) : Step → Prop
  | .beginWrite group => (encodeGroup group).length<2^32 ∧ WholeRecords s.proc.currentBytes
  | _ => True

instance (s : System) (e : Step) : Decidable (s.AppendsCleanly e) :=
  match e with
  | .beginWrite _ => inferInstanceAs (Decidable (_ ∧ _))
  | .start | .recoverCall | .opened | .writerCall | .apply _ | .acknowledge | .beginFlush
  | .flusherCall | .endFlush | .crash => .isTrue trivial

namespace System
variable {options : Options} {s s' : System}

def Sound (options : Options) (s : System) : Prop :=
  match s.proc with
  | .down d => Durable (opsOf s.history) d
  | .recovering start d rest => Durable (opsOf s.history) start ∧
      Along Disk.apply (Alike start) d rest ∧ d.exec rest = start.exec (recoverOps options start)
  | .up db w f => ∃ g, Live (opsOf (s.history++w.orphan)) db w f g

theorem Sound.durable (h : s.Sound options) :
    Durable (opsOf (s.history++s.proc.orphan)) s.proc.disk := by
  obtain ⟨proc,history⟩ := s
  cases proc with
  | down d =>
    change Durable (opsOf (history++[])) d
    rw [List.append_nil]
    exact h
  | recovering start d rest =>
    change Durable (opsOf (history++[])) d
    rw [List.append_nil]
    exact h.2.1.now.durable h.1
  | up db w f =>
    obtain ⟨g,hg⟩ := h
    exact hg.durable

lemma currentBytes_eq {ops : List BatchOp} {db : DBImpl} {w : Writer} {f : Flusher} {g : Division}
    (h : Live ops db w f g) : (Proc.up db w f).currentBytes = g.bytes := by
  rw [Proc.currentBytes,h.wals_split,Directory.get_append,Directory.get_eq_none_iff.mpr h.current_not_mem]
  simp [Directory.get]

theorem Sound.step {e : Step} (h : s.Sound options) (hclean : s.AppendsCleanly e)
    (hstep : s.step options e = some s') : s'.Sound options := by
  obtain ⟨proc,history⟩ := s
  cases e with
  | start =>
    simp only [System.step] at hstep
    split at hstep <;> cases hstep
    exact ⟨h,(keeps_recoverOps options _).1.1,rfl⟩
  | recoverCall =>
    simp only [System.step] at hstep
    split at hstep <;> cases hstep
    exact ⟨h.1,h.2.1.2,h.2.2⟩
  | opened =>
    simp only [System.step] at hstep
    split at hstep <;> cases hstep
    rename_i start d
    obtain ⟨hstart,-,hend⟩ := h
    have hd : d = (recover options start).disk := hend
    rw [hd]
    change ∃ g, Live (opsOf (history++[])) _ _ _ g
    rw [List.append_nil]
    exact hstart.live_recover options
  | beginWrite group =>
    simp only [System.step] at hstep
    split at hstep
    · split at hstep <;> cases hstep
      obtain ⟨g,hg⟩ := h
      have hwhole := hclean.2
      rw [currentBytes_eq hg] at hwhole
      exact ⟨g,hg.beginWrite hclean.1 hwhole⟩
    · cases hstep
  | writerCall =>
    simp only [System.step] at hstep
    split at hstep <;> cases hstep
    rename_i group op rest f
    obtain ⟨g,hg⟩ := h
    change ∃ g', Live (opsOf (history++(writing group rest).orphan)) _ _ _ g'
    rw [opsOf_append,opsOf_orphan_writing]
    have hops : opsOf (history++(writing group (op::rest)).orphan) = opsOf history := by
      rw [opsOf_append,opsOf_orphan_writing]
      exact List.append_nil _
    rw [hops] at hg
    exact hg.writerCall
  | apply full =>
    simp only [System.step] at hstep
    split at hstep <;> cases hstep
    obtain ⟨g,hg⟩ := h
    cases full with
    | true => exact ⟨_,hg.apply.freeze⟩
    | false => exact ⟨_,hg.apply⟩
  | acknowledge =>
    simp only [System.step] at hstep
    split at hstep <;> cases hstep
    rename_i db group f
    obtain ⟨g,hg⟩ := h
    refine ⟨g,?_⟩
    have hops : opsOf (history++[⟨group,true⟩]++idle.orphan) =
        opsOf (history++(applied group).orphan) := by
      simp [orphan]
    rw [hops]
    exact hg.acknowledge
  | beginFlush =>
    simp only [System.step] at hstep
    split at hstep
    · split at hstep <;> cases hstep
      rename_i hqueue
      obtain ⟨g,hg⟩ := h
      exact hg.takeFlush hqueue
    · cases hstep
  | flusherCall =>
    simp only [System.step] at hstep
    split at hstep <;> cases hstep
    obtain ⟨g,hg⟩ := h
    exact hg.flusherCall
  | endFlush =>
    simp only [System.step] at hstep
    split at hstep <;> cases hstep
    obtain ⟨g,hg⟩ := h
    exact ⟨g,hg.endFlush⟩
  | crash =>
    cases hstep
    exact h.durable

lemma sound_init (options : Options) : init.Sound options := by
  refine ⟨List.Pairwise.nil,fun i _ => filesAt_replicate 8 i,?_,[],[],[],rfl,rfl,fun _ => rfl⟩
  intro m hm
  cases hm

/-- In every state that such a run reaches, `recover` restores for every key the effect of the
acknowledged groups and of the groups that were in the WAL when a crash came, in their order. -/
theorem recoveredView_of_appendsCleanly (options : Options) {steps : List Step} {s : System}
    (hrun : init.run options steps = some s)
    (hclean : Runs.Meets (System.step options) System.AppendsCleanly init steps) (k : Bytes) :
    (recover options s.proc.disk).recoveredView k =
      lastOp (opsOf (s.history++s.proc.orphan)) k := by
  have hsound : s.Sound options :=
    Runs.invariant (fun _ _ _ h hc hs => h.step hc hs) hclean hrun (sound_init options)
  exact hsound.durable.recoveredView_recover options k

def openSteps : List Step := .start::(List.replicate 6 .recoverCall ++ [.opened])

def putSteps (k v : Bytes) : List Step :=
  [.beginWrite [[⟨.put,k,v⟩]],.writerCall,.writerCall,.apply false,.acknowledge]

/-- Two sessions that crash, the second one with a group that is in the WAL but was not
acknowledged. -/
theorem recoveredView_after_two_crashes :
    ∃ s, init.run ⟨100,6⟩ (openSteps ++ putSteps [1] [2] ++ [.crash]++openSteps ++
        [.beginWrite [[⟨.put,[1],[3]⟩]],.writerCall,.writerCall,.crash]) = some s ∧
      (recover ⟨100,6⟩ s.proc.disk).recoveredView [1] = some (some [3]) := by
  have heval : (init.run ⟨100,6⟩ (openSteps ++ putSteps [1] [2] ++ [.crash]++openSteps ++
      [.beginWrite [[⟨.put,[1],[3]⟩]],.writerCall,.writerCall,.crash])).map
        (fun s => lastOp (opsOf (s.history++s.proc.orphan)) [1]) = some (some (some [3])) := by
    decide +kernel
  obtain ⟨s,hs,hval⟩ := Option.map_eq_some_iff.mp heval
  refine ⟨s,hs,?_⟩
  rw [recoveredView_of_appendsCleanly ⟨100,6⟩ hs (by decide +kernel) [1],hval]

/-- The first session crashes between the two writes of an append. The second one appends an
acknowledged record behind the torn one, where no replay finds it. -/
theorem recoveredView_loses_acknowledged :
    ∃ s, init.run ⟨100,6⟩ (openSteps++[.beginWrite [[⟨.put,[1],[2]⟩]],.writerCall,.crash] ++
        openSteps ++ putSteps [3] [4]) = some s ∧ s.history.map (·.acknowledged) = [true] ∧
      lastOp (opsOf (s.history++s.proc.orphan)) [3] = some (some [4]) ∧
      (recover ⟨100,6⟩ s.proc.disk).recoveredView [3] = none := by
  have heval : (init.run ⟨100,6⟩ (openSteps++[.beginWrite [[⟨.put,[1],[2]⟩]],.writerCall,.crash] ++
      openSteps ++ putSteps [3] [4])).map (fun s => (s.history.map (·.acknowledged),
        lastOp (opsOf (s.history++s.proc.orphan)) [3],
        (recover ⟨100,6⟩ s.proc.disk).recoveredView [3])) =
      some ([true],some (some [4]),none) := by decide +kernel
  obtain ⟨s,hs,hval⟩ := Option.map_eq_some_iff.mp heval
  simp only [Prod.mk.injEq] at hval
  exact ⟨s,hs,hval⟩

end System
end TitanKV.Minikv
