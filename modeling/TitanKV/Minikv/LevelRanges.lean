import TitanKV.Minikv.CompactionView

/-! Key ranges of the SSTables of a level. A merge looks at its source level only, so what it
adds to the next level may overlap what is there. -/
namespace TitanKV.Minikv
open List Function

/-- The user-key ranges of two runs are disjoint: all keys of one lie below all of the other. -/
def Apart (f g : List Entry) : Prop :=
  (∀ x ∈ f, ∀ y ∈ g, compare x.key.userKey y.key.userKey = .lt) ∨
    ∀ x ∈ f, ∀ y ∈ g, compare y.key.userKey x.key.userKey = .lt

namespace DBImpl

/-- No two SSTables of a level below level 0 overlap. -/
def NoOverlap (db : DBImpl) : Prop := ∀ i, 1 ≤ i → (db.runsAt i).Pairwise Apart

/-- The newest version of the key on the level is a value; the empty key is left out. -/
def Survives (db : DBImpl) (level : ℕ) (k : Bytes) : Prop :=
  k ≠ [] ∧ ∃ e, db.levelEntry k level = some e ∧ e.key.isDeletion = false

/-- For every SSTable of the level after the source level: all keys that survive in the source
level lie below its keys, or all of them lie above. -/
def MergesApart (db : DBImpl) (src : ℕ) : Prop :=
  src<db.options.maxLevel → ∀ run ∈ db.runsAt (src+1),
    (∀ k, db.Survives src k → ∀ y ∈ run, compare k y.key.userKey = .lt) ∨
      ∀ k, db.Survives src k → ∀ y ∈ run, compare y.key.userKey k = .lt

variable {db : DBImpl}

lemma survives_iff (h : db.ByAge) (src : ℕ) (k : Bytes) : db.Survives src k ↔
    ∃ e ∈ (mergedTable db.disk (db.version.getLevelFiles src)).entries, e.key.userKey = k := by
  have hnewest := newest_mergedTable h src k
  have hsome : (∃ e ∈ (mergedTable db.disk (db.version.getLevelFiles src)).entries, e.key.userKey = k) ↔
      newest (mergedTable db.disk (db.version.getLevelFiles src)).entries k ≠ none := by
    rw [ne_eq,newest_eq_none_iff]
    push Not
    rfl
  rw [hsome,hnewest,Survives]
  by_cases hk : k = []
  · simp [hk]
  · cases hentry : db.levelEntry k src with
    | none => simp [hk,present]
    | some e =>
      cases hd : e.key.isDeletion with
      | true | false => simp [hk,present,hd]

lemma mergesApart_iff (h : db.ByAge) {src : ℕ} (hmax : src<db.options.maxLevel) :
    db.MergesApart src ↔ ∀ run ∈ db.runsAt (src+1),
      Apart run (mergedTable db.disk (db.version.getLevelFiles src)).entries := by
  have hkeys : ∀ P : Bytes → Prop, (∀ k, db.Survives src k → P k) ↔
      ∀ e ∈ (mergedTable db.disk (db.version.getLevelFiles src)).entries, P e.key.userKey := by
    intro P
    simp only [survives_iff h]
    exact ⟨fun hP e he => hP _ ⟨e,he,rfl⟩,fun hP k ⟨e,he,hk⟩ => hk ▸ hP e he⟩
  rw [MergesApart]
  simp only [hmax,true_implies,hkeys,Apart]
  refine forall₂_congr fun run _ => ?_
  rw [or_comm]
  exact or_congr ⟨fun hP x hx y hy => hP y hy x hx,fun hP y hy x hx => hP x hx y hy⟩
    ⟨fun hP x hx y hy => hP y hy x hx,fun hP y hy x hx => hP x hx y hy⟩

/-- A merge keeps the levels free of overlap exactly when its output lies apart from the next
level. -/
lemma noOverlap_mergeLevel_iff (h : db.ByAge) (hno : db.NoOverlap) (src : ℕ) :
    (db.mergeLevel src).2.NoOverlap ↔ db.MergesApart src := by
  rcases (mergeLevelFiles_cases db src (db.version.getLevelFiles src)).2 with ⟨hnothing,hid⟩ | ⟨-,hmax,hm⟩
  · rw [mergeLevel,hid]
    refine iff_of_true hno fun hmax run _ => .inl fun k hk => ?_
    rcases hnothing with hnil | hdeep
    · obtain ⟨-,e,he,-⟩ := hk
      have hfiles : filesAt db.version.levels src = [] := map_eq_nil_iff.mp hnil
      rw [levelEntry,runsAt,hfiles] at he
      cases he
    · omega
  · rw [mergesApart_iff h hmax,mergeLevel]
    have hruns := hm.runsAt h.placed
    obtain ⟨merged,hmerged⟩ : ∃ merged, merged = (mergedTable db.disk (db.version.getLevelFiles src)).entries :=
      ⟨_,rfl⟩
    rw [← hmerged] at hruns ⊢
    have hclear : ∀ i, 1 ≤ i → (Function.update db.runsAt src [] i).Pairwise Apart := by
      intro i hi
      by_cases hsrc : i = src
      · rw [hsrc,update_self]
        exact Pairwise.nil
      · rw [update_of_ne hsrc]
        exact hno i hi
    by_cases hkept : merged = []
    · rw [if_pos hkept] at hruns
      refine iff_of_true (fun i hi => by rw [hruns]; exact hclear i hi) ?_
      intro run _
      rw [hkept]
      exact .inl fun x _ y hy => by cases hy
    · rw [if_neg hkept] at hruns
      constructor
      · intro hafter run hrun
        have hnext := hafter (src+1) (by omega)
        rw [hruns,update_self] at hnext
        exact (pairwise_append.mp hnext).2.2 run hrun merged (mem_singleton_self _)
      · intro hapart i hi
        rw [hruns]
        by_cases hnext : i = src+1
        · rw [hnext,update_self]
          refine pairwise_append.mpr ⟨hno _ (by omega),pairwise_singleton _ _,?_⟩
          intro run hrun run' hrun'
          rw [mem_singleton.mp hrun']
          exact hapart run hrun
        · rw [update_of_ne hnext]
          exact hclear i hi

lemma NoOverlap.step (h : db.ByAge) (hno : db.NoOverlap) {e : Event}
    (he : e.plain = true) : (db.step e).NoOverlap := by
  cases e with
  | write group =>
    intro i hi
    rw [DBImpl.step,runsAt_writeGroup]
    exact hno i hi
  | freeze =>
    intro i hi
    exact hno i hi
  | flush =>
    intro i hi
    rw [DBImpl.step]
    cases hq : db.flushQueue with
    | nil =>
      rw [flushNext_nil hq]
      exact hno i hi
    | cons entry queue =>
      rw [(flushNext_cons hq).runsAt h.placed]
      split
      · exact hno i hi
      · rw [update_of_ne (by omega)]
        exact hno i hi
  | compact level | reopen => cases he

/-- In a session, the levels below level 0 are free of overlap throughout exactly when every
compaction found the keys it keeps apart from each SSTable of the next level. -/
theorem noOverlap_iff (options : Options) {events : List Event}
    (hsession : ∀ e ∈ events, e.inSession = true) :
    (∀ past, past <+: events → ((fresh options).run past).NoOverlap) ↔
      ∀ past src, past ++ [.compact src] <+: events → ((fresh options).run past).MergesApart src := by
  have hage : ∀ past, past <+: events → ((fresh options).run past).ByAge := by
    intro past hpast
    exact (ByAge.fresh options).run fun e he => hsession e (hpast.subset he)
  have hlast : ∀ (past : List Event) (e : Event),
      (fresh options).run (past++[e]) = ((fresh options).run past).step e := by
    intro past e
    rw [run_append]
    rfl
  constructor
  · intro hall past src hpast
    have hbefore : past <+: events := (prefix_append _ _).trans hpast
    have hafter := hall _ hpast
    rw [hlast] at hafter
    exact (noOverlap_mergeLevel_iff (hage past hbefore) (hall past hbefore) src).mp hafter
  · intro hmerges past
    induction past using reverseRecOn with
    | nil =>
      intro _ i _
      have hfiles : filesAt (fresh options).version.levels i = [] := filesAt_replicate 8 i
      change ((fresh options).runsAt i).Pairwise Apart
      rw [runsAt,hfiles]
      exact Pairwise.nil
    | append_singleton past e ih =>
      intro hpast
      have hbefore : past <+: events := (prefix_append _ _).trans hpast
      have hno := ih hbefore
      rw [hlast]
      have hin := hsession e (hpast.subset (by simp))
      cases e with
      | write group | freeze | flush => exact hno.step (hage past hbefore) rfl
      | compact src => exact (noOverlap_mergeLevel_iff (hage past hbefore) hno src).mpr (hmerges past src hpast)
      | reopen => cases hin

/-- The first compaction of a database finds the next level empty. -/
theorem noOverlap_of_first_compaction :
    ((fresh ⟨100,1⟩).run [.write [[⟨.put,[1],[2]⟩]],.freeze,.flush,.compact 0]).NoOverlap := by
  refine (noOverlap_iff ⟨100,1⟩ (by decide)).mpr ?_ _ prefix_rfl
  rintro past src ⟨rest,hpast⟩ - run hrun
  rcases past with _ | ⟨a,_ | ⟨b,_ | ⟨c,_ | ⟨d,past⟩⟩⟩⟩
  · simp at hpast
  · simp at hpast
  · simp at hpast
  · obtain ⟨rfl,rfl,rfl,rfl,-⟩ := hpast
    have hempty : ((fresh ⟨100,1⟩).run [.write [[⟨.put,[1],[2]⟩]],.freeze,.flush]).runsAt 1 = [] := by
      decide +kernel
    cases hrun
  · simp at hpast

/-- Two compactions that keep the same key put it on level 1 twice. -/
theorem not_noOverlap_after_two_compactions :
    ¬ ((fresh ⟨100,1⟩).run [.write [[⟨.put,[1],[2]⟩]],.freeze,.flush,.compact 0,
      .write [[⟨.put,[1],[3]⟩]],.freeze,.flush,.compact 0]).NoOverlap := by
  have hruns : ((fresh ⟨100,1⟩).run [.write [[⟨.put,[1],[2]⟩]],.freeze,.flush,.compact 0,
      .write [[⟨.put,[1],[3]⟩]],.freeze,.flush,.compact 0]).runsAt 1 =
      [[⟨⟨[1],1,.value⟩,[2]⟩],[⟨⟨[1],2,.value⟩,[3]⟩]] := by decide +kernel
  intro hno
  have hpair := hno 1 le_rfl
  rw [hruns,pairwise_pair] at hpair
  rcases hpair with hlt | hlt
  · exact absurd (hlt _ (mem_singleton_self _) _ (mem_singleton_self _)) (by decide)
  · exact absurd (hlt _ (mem_singleton_self _) _ (mem_singleton_self _)) (by decide)

end DBImpl
end TitanKV.Minikv
