import TitanKV.Minikv.ChronicleCrash

/-! The order of the files over whole runs, with any number of sessions and crashes. It encodes recency
provided no WAL append ever starts behind a torn record, except that a merge leaves older versions on
the source level between publishing its result and retracting its sources, or for good if the process
crashes in between. -/
namespace TitanKV.Minikv
open Option Threads.Recent Runs

def CompactionThread.merging : CompactionThread → List TablePath
  | reading _ sources _ _ | creating _ sources _ _ | building _ sources _ _ | listing _ sources _ _ => sources
  | _ => []

lemma CompactionThread.Sound.merging_listed {c : CompactionThread} {db : DBImpl} (h : c.Sound db) {path : TablePath}
    (hpath : path ∈ c.merging) : ∃ i, path ∈ db.version.getLevelFiles i := by
  cases c with
  | reading level sources rest all | listing level sources newFile merged => exact ⟨level,h.1.listed.subset hpath⟩
  | creating level sources newFile merged | building level sources newFile merged =>
      exact ⟨level,h.listed.subset hpath⟩
  | _ => cases hpath

/-- A merge keeps its sources until it lists its result; until then no table that is listed changes. -/
lemma Threads.merging_compact {t t' : Threads} (h : t.Tidy) (hstep : t.compactStep = some t') {path : TablePath}
    (hpath : path ∈ t'.compactor.merging) : path ∈ t.compactor.merging ∧ t.Quiet t' := by
  have hquiet : t.compactor.busy = false → t.Quiet t' := fun hbusy => quiet_compact h hbusy hstep
  obtain ⟨db,f,c⟩ := t
  cases compactStep_cases hstep with
  | read _ _ _ _ _ | number _ _ _ | create _ _ _ _ | build _ _ _ _ => exact ⟨hpath,hquiet rfl⟩
  | _ => cases hpath

namespace Chronicle
variable {s s' : Chronicle} {e : LifeEvent}

def Sound (s : Chronicle) : Prop :=
  match s.life with
  | .down d => Kept s.ledger d
  | .up t => t.Logged s.ledger ∧ ∀ k, t.Recent s.ledger k

lemma sound_init : init.Sound := Kept.init

lemma sound_work {t t' : Threads} {l : Ledger} {e : ThreadEvent} (hl : t.Logged l) (h : ∀ k, t.Recent l k)
    (hclean : AppendsCleanly ⟨.up t,l⟩ (.work e)) (hstep : t.step e = some t') :
    t'.Logged (l.step t e) ∧ ∀ k, t'.Recent (l.step t e) k := by
  cases e with
  | write group =>
    obtain rfl := some.inj hstep
    exact ⟨hl.write hclean.1 hclean.2,fun k => write hl (h k) hclean.1 hclean.2⟩
  | flush => exact ⟨hl.flush hstep,fun k => flush hl (h k) hstep⟩
  | merge level => exact ⟨hl.merge hstep,fun k => (h k).merge hstep⟩
  | compact => exact ⟨hl.compact hstep,fun k => compact hl (h k) hstep⟩

/-- What an event can do. -/
lemma step_cases (hstep : s.step e = some s') :
    (∃ d options, s.life = .down d ∧ e = .start options ∧ s' = ⟨.up (Threads.opened options d),s.ledger.reopen d⟩) ∨
    (∃ d options calls, s.life = .down d ∧ e = .cutStart options calls ∧ calls<(recoverOps options d).length ∧
      s' = ⟨.down (d.exec ((recoverOps options d).take calls)),s.ledger⟩) ∨
    (∃ t t' work, s.life = .up t ∧ e = .work work ∧ t.step work = some t' ∧ s' = ⟨.up t',s.ledger.step t work⟩) ∨
    ∃ t d point, s.life = .up t ∧ e = .crash point ∧ t.crash point = some d ∧
      s' = ⟨.down d,s.ledger.crash t point⟩ := by
  obtain ⟨life,l⟩ := s
  cases life with
  | down d =>
    cases e with
    | start options => exact .inl ⟨d,options,rfl,rfl,(some.inj hstep).symm⟩
    | cutStart options calls =>
      simp only [Chronicle.step,ite_none_right_eq_some,some.injEq] at hstep
      exact .inr (.inl ⟨d,options,calls,rfl,rfl,hstep.1,hstep.2.symm⟩)
    | work e | crash point => cases hstep
  | up t =>
    cases e with
    | start options | cutStart options calls => cases hstep
    | work work =>
      obtain ⟨t',ht,rfl⟩ := map_eq_some_iff.mp hstep
      exact .inr (.inr (.inl ⟨t,t',work,rfl,rfl,ht,rfl⟩))
    | crash point =>
      obtain ⟨d,hd,rfl⟩ := map_eq_some_iff.mp hstep
      exact .inr (.inr (.inr ⟨t,d,point,rfl,rfl,hd,rfl⟩))

theorem Sound.step (h : s.Sound) (hclean : s.AppendsCleanly e) (hstep : s.step e = some s') : s'.Sound := by
  obtain ⟨life,l⟩ := s
  obtain ⟨d,options,rfl,rfl,rfl⟩ | ⟨d,options,calls,rfl,rfl,hcalls,rfl⟩ | ⟨t,t',work,rfl,rfl,ht,rfl⟩ | ⟨t,d,point,
    rfl,rfl,hd,rfl⟩ :=
    step_cases hstep
  · exact Kept.start options h
  · exact Kept.cutStart options h hcalls
  · exact sound_work h.1 h.2 hclean ht
  · refine crash h.1 h.2 hd ?_
    rintro group bytes rfl
    exact hclean

theorem Sound.inOrder (h : s.Sound) : s.InOrder s.ledger.outdated := by
  have hfiled : ∀ k, ∃ gens, Filed s.ledger k s.disk s.files gens := by
    intro k
    obtain ⟨life,l⟩ := s
    cases life with
    | down d => exact ⟨_,h.filed k⟩
    | up t => exact ⟨_,(h.2 k).filed⟩
  refine ⟨?_,?_⟩
  · intro k i
    obtain ⟨gens,hk⟩ := hfiled k
    refine (List.pairwise_filter.mp (hk.order.level i)).imp ?_
    intro g f hle hf hg
    exact hle hg hf
  · intro k i j hij f hf g hg
    obtain ⟨gens,hk⟩ := hfiled k
    by_cases hhas : s.disk.Has k f = true ∧ s.disk.Has k g = true
    · have hle := hk.order.deeper i j hij f (Disk.mem_holders.mpr ⟨hf,hhas.1⟩) g (Disk.mem_holders.mpr ⟨hg,hhas.2⟩)
      exact hle.imp_left fun hle _ _ => hle
    · exact .inl fun hfk hgk => (hhas ⟨hfk,hgk⟩).elim

/-- Nothing is outdated, and the sources of a merge hold versions of a key from one time only. -/
structure Unmarked (s : Chronicle) : Prop where
  marks : ∀ path k, s.ledger.outdated path k = false
  sources : ∀ t, s.life = .up t → ∀ k, ∀ f ∈ t.compactor.merging, ∀ g ∈ t.compactor.merging, s.Newer k f g

lemma Newer.keep {k : Bytes} {f g : TablePath} (h : s.Newer k f g) (hf : s'.disk.entriesOf f = s.disk.entriesOf f)
    (hg : s'.disk.entriesOf g = s.disk.entriesOf g) (hfages : s'.ledger.ages f = s.ledger.ages f)
    (hgages : s'.ledger.ages g = s.ledger.ages g) : s'.Newer k f g := by
  unfold Newer
  rw [hf,hg,hfages,hgages]
  exact h

section Work
variable {t t' : Threads} {l : Ledger} (hl : t.Logged l) (h : Unmarked ⟨.up t,l⟩)
include hl h

lemma Unmarked.flush (hstep : t.flushStep = some t') : Unmarked ⟨.up t',l.step t .flush⟩ := by
  obtain ⟨hc,-,hentries⟩ := Threads.flush_frame hl.tidy hstep
  refine ⟨?_,?_⟩
  · intro path k
    by_cases ht : t.flusher.target = some path
    · rw [Ledger.step]
      split
      · rename_i entry p hf
        rw [hf] at ht
        obtain rfl := some.inj ht
        exact congrFun (Function.update_self p _ l.outdated) k
      · exact h.marks path k
    · rw [(l.step_flush_of_ne t path ht).2]
      exact h.marks path k
  · rintro t₁ ht₁ k f hf g hg
    obtain rfl := Life.up.inj ht₁
    rw [hc] at hf hg
    obtain ⟨i,hi⟩ := hl.tidy.compactor.merging_listed hf
    obtain ⟨j,hj⟩ := hl.tidy.compactor.merging_listed hg
    exact (h.sources t rfl k f hf g hg).keep (hentries i f hi) (hentries j g hj) (ages_listed_flush hl i hi).1
      (ages_listed_flush hl j hj).1

lemma Unmarked.marks_compact (hr : ∀ k, t.Recent l k) (path : TablePath) (k : Bytes) :
    (l.step t .compact).outdated path k = false := by
  rw [Ledger.step]
  split
  · rename_i level sources newFile merged hc
    by_cases heq : path = newFile
    · rw [heq]
      exact congrFun (Function.update_self newFile _ l.outdated) k
    · have hsame : (l.merge t.db.disk sources newFile merged).outdated path = l.outdated path :=
        Function.update_of_ne heq _ _
      rw [hsame]
      exact h.marks path k
  · rename_i level sources newFile merged hc
    split
    · exact h.marks path k
    · have hsound := hl.tidy.compactor
      have haged := (hr k).compactor
      rw [hc] at hsound haged
      have hold : l.outdated path k = false := h.marks path k
      rw [Ledger.publish]
      simp only [hold,Bool.false_or,Bool.and_eq_false_iff,decide_eq_false_iff_not,not_lt]
      by_cases hnew : (newest (t.db.disk.entriesOf newFile) k).isSome = true
      · by_cases hpath : (newest (t.db.disk.entriesOf path) k).isSome = true
        · by_cases hsource : path ∈ sources
          · refine .inr ?_
            obtain ⟨c,hmem,hage⟩ := haged.2 (hsound.2 ▸ hnew)
            obtain ⟨hcs,hhas⟩ := Disk.mem_holders.mp (List.argmax_mem hmem)
            have hsources := h.sources t rfl k path (by rw [hc]; exact hsource) c (by rw [hc]; exact hcs)
            rw [hage]
            exact hsources hpath hhas
          · exact .inl (.inl (.inl (by simpa using hsource)))
        · exact .inl (.inl (.inr (by simpa using hpath)))
      · exact .inl (.inr (by simpa using hnew))
  · exact h.marks path k

lemma Unmarked.compact (hr : ∀ k, t.Recent l k) (hstep : t.compactStep = some t') :
    Unmarked ⟨.up t',l.step t .compact⟩ := by
  refine ⟨fun path k => h.marks_compact hl hr path k,?_⟩
  rintro t₁ ht₁ k f hf g hg
  obtain rfl := Life.up.inj ht₁
  obtain ⟨hf,hquiet⟩ := Threads.merging_compact hl.tidy hstep hf
  obtain ⟨hg,-⟩ := Threads.merging_compact hl.tidy hstep hg
  obtain ⟨i,hi⟩ := hl.tidy.compactor.merging_listed hf
  obtain ⟨j,hj⟩ := hl.tidy.compactor.merging_listed hg
  exact (h.sources t rfl k f hf g hg).keep (hquiet.entries i f hi) (hquiet.entries j g hj)
    (l.ages_compact t f (listed_ne_target hl hi)) (l.ages_compact t g (listed_ne_target hl hj))

omit hl in
lemma Unmarked.write (group : WriteGroup) :
    Unmarked ⟨.up { t with db := t.db.doWriteGroup group },l.step t (.write group)⟩ := by
  have hw := t.db.wrote_doWriteGroup group
  have hsame : (l.step t (.write group)).ages = l.ages ∧ (l.step t (.write group)).outdated = l.outdated := by
    rw [Ledger.step]
    split
    · exact ⟨rfl,rfl⟩
    · split <;> exact ⟨rfl,rfl⟩
  refine ⟨?_,?_⟩
  · intro path k
    exact (congrFun (congrFun hsame.2 path) k).trans (h.marks path k)
  · rintro t₁ ht₁ k f hf g hg
    obtain rfl := Life.up.inj ht₁
    exact (h.sources t rfl k f hf g hg).keep (congrFun hw.entries f) (congrFun hw.entries g) (congrFun hsame.1 f)
      (congrFun hsame.1 g)

end Work

theorem Unmarked.step (hs : s.Sound) (h : s.Unmarked) (hapart : s.MergesApart e) (hstep : s.step e = some s') :
    s'.Unmarked := by
  obtain ⟨life,l⟩ := s
  obtain ⟨d,options,rfl,rfl,rfl⟩ | ⟨d,options,calls,rfl,rfl,-,rfl⟩ | ⟨t,t',work,rfl,rfl,ht,rfl⟩ | ⟨t,d,point,rfl,rfl,
    -,rfl⟩ :=
    step_cases hstep
  · refine ⟨fun path k => ?_,?_⟩
    · rw [(ages_reopen l d).2.1]
      exact h.marks path k
    · rintro t ht k f hf
      obtain rfl := Life.up.inj ht
      cases hf
  · exact ⟨h.marks,fun t ht => by cases ht⟩
  · cases work with
    | write group =>
      obtain rfl := some.inj ht
      exact h.write group
    | flush => exact h.flush hs.1 ht
    | merge level =>
      obtain ⟨-,-,rfl⟩ := Threads.merge_eq ht
      refine ⟨h.marks,?_⟩
      rintro t₁ ht₁ k f hf g hg
      obtain rfl := Life.up.inj ht₁
      exact hapart k f hf g hg
    | compact => exact h.compact hs.1 hs.2 ht
  · refine ⟨?_,fun t ht => by cases ht⟩
    intro path k
    have hsame : (l.crash t point).outdated = l.outdated := by
      cases point with
      | append group bytes =>
        rw [Ledger.crash]
        split <;> rfl
      | _ => rfl
    exact (congrFun (congrFun hsame path) k).trans (h.marks path k)

/-- In every state that such a run reaches, later tables of a level hold newer versions, and so do
tables of shallower levels for every key that no merge has outdated in them. If every merge begins on a
level that holds each key in versions of one time, the order holds throughout. -/
theorem inOrder_of_appendsCleanly {events : List LifeEvent} (hrun : run step init events = some s)
    (hclean : Meets step AppendsCleanly init events) :
    s.InOrder s.ledger.outdated ∧ (Meets step MergesApart init events → s.InOrder fun _ _ => false) := by
  have hsound : s.Sound := invariant (fun _ _ _ h hc hs => h.step hc hs) hclean hrun sound_init
  refine ⟨hsound.inOrder,?_⟩
  intro hapart
  have hkeep : ∀ (s : Chronicle) e s', s.Sound ∧ s.Unmarked → s.AppendsCleanly e ∧ s.MergesApart e →
      s.step e = some s' → s'.Sound ∧ s'.Unmarked :=
    fun _ _ _ h hc hs => ⟨h.1.step hc.1 hs,h.2.step h.1 hc.2 hs⟩
  have hinit : init.Sound ∧ init.Unmarked := ⟨sound_init,fun _ _ => rfl,fun t ht => by cases ht⟩
  have hunmarked := invariant hkeep (hclean.and hapart) hrun hinit
  have hnone : s.ledger.outdated = fun _ _ => false := by
    funext path k
    exact hunmarked.2.marks path k
  rw [← hnone]
  exact hsound.inOrder

instance (s : Chronicle) (e : LifeEvent) : Decidable (s.AppendsCleanly e) :=
  match e with
  | .work (.write _) | .crash (.append _ _) => inferInstanceAs (Decidable (_ ∧ _))
  | .work .flush | .work (.merge _) | .work .compact | .crash .between | .crash (.flush _) | .crash (.compact _)
  | .start _ | .cutStart _ _ => .isTrue trivial

instance (s : Chronicle) (k : Bytes) (f g : TablePath) : Decidable (s.Newer k f g) :=
  inferInstanceAs (Decidable (_ → _ → _))

lemma mergesApart_iff (s : Chronicle) (level : ℕ) : s.MergesApart (.work (.merge level)) ↔
    ∀ f ∈ s.files level, ∀ g ∈ s.files level, ∀ entry ∈ s.disk.entriesOf f, s.Newer entry.key.userKey f g := by
  refine ⟨fun h f hf g hg entry _ => h entry.key.userKey f hf g hg,?_⟩
  intro h k f hf g hg hsome
  obtain ⟨entry,hentry⟩ := isSome_iff_exists.mp hsome
  obtain rfl := userKey_of_newest hentry
  exact h f hf g hg entry (List.mem_of_find?_eq_some hentry) hsome

instance (s : Chronicle) (e : LifeEvent) : Decidable (s.MergesApart e) :=
  match e with
  | .work (.merge level) => decidable_of_iff _ (s.mergesApart_iff level).symm
  | .work (.write _) | .work .flush | .work .compact | .crash _ | .start _ | .cutStart _ _ => .isTrue trivial

def putEvent (k v : Bytes) : LifeEvent := .work (.write [[⟨.put,k,v⟩]])

/-- Two puts, each flushed into a table of its own; then the tables are merged and the result is listed. -/
def mergeEvents (k v k' v' : Bytes) : List LifeEvent :=
  [.start ⟨1,6⟩,putEvent k v] ++ List.replicate 6 (.work .flush) ++ [putEvent k' v'] ++
    List.replicate 6 (.work .flush) ++ [.work (.merge 0)] ++ List.replicate 6 (.work .compact)

/-- A crash after the first source is retracted leaves the other one beside the result. -/
theorem inOrder_of_appendsCleanly_merge :
    (∃ s, run step init (mergeEvents [1] [2] [1] [3] ++ [.crash (.compact 3),.start ⟨1,6⟩]) = some s ∧
      s.files 0 = [⟨0,5⟩] ∧ s.files 1 = [⟨1,6⟩] ∧ s.InOrder s.ledger.outdated) ∧
    ∃ s, run step init (mergeEvents [1] [2] [2] [3]) = some s ∧
      s.files 0 = [⟨0,3⟩,⟨0,5⟩] ∧ s.files 1 = [⟨1,6⟩] ∧ s.InOrder fun _ _ => false := by
  have heval : (run step init (mergeEvents [1] [2] [1] [3] ++ [.crash (.compact 3),.start ⟨1,6⟩])).map
      (fun s => (s.files 0,s.files 1)) = some ([⟨0,5⟩],[⟨1,6⟩]) := by decide +kernel
  have heval' : (run step init (mergeEvents [1] [2] [2] [3])).map (fun s => (s.files 0,s.files 1)) =
      some ([⟨0,3⟩,⟨0,5⟩],[⟨1,6⟩]) := by decide +kernel
  obtain ⟨s,hs,hfiles⟩ := map_eq_some_iff.mp heval
  obtain ⟨s',hs',hfiles'⟩ := map_eq_some_iff.mp heval'
  simp only [Prod.mk.injEq] at hfiles hfiles'
  exact ⟨⟨s,hs,hfiles.1,hfiles.2,(inOrder_of_appendsCleanly hs (by decide +kernel)).1⟩,
    s',hs',hfiles'.1,hfiles'.2,(inOrder_of_appendsCleanly hs' (by decide +kernel)).2 (by decide +kernel)⟩

/-- The process dies eight bytes into a record; behind them the next session writes a newer version and
flushes it. The replay stops at the torn record, so the older version before it is flushed later. -/
def tearEvents : List LifeEvent :=
  [.start ⟨1,6⟩,putEvent [1] [2],.crash .between,.start ⟨1,6⟩,.crash (.append [[⟨.put,[5],[5]⟩]] 8),
    .start ⟨1,6⟩,putEvent [1] [3]] ++ List.replicate 5 (.work .flush) ++
    [.crash .between,.start ⟨1,6⟩,putEvent [7] [7]] ++ List.replicate 4 (.work .flush)

/-- Between the listing of a merged table and the retraction of its sources, a source on the shallower
level holds an older version. -/
theorem not_inOrder_of_merge_of_tear :
    (∃ s, run step init (mergeEvents [1] [2] [1] [3]) = some s ∧
      Meets step AppendsCleanly init (mergeEvents [1] [2] [1] [3]) ∧ ¬s.InOrder fun _ _ => false) ∧
    ∃ s, run step init tearEvents = some s ∧ Meets step MergesApart init tearEvents ∧
      ¬s.InOrder fun _ _ => false := by
  have hmerge : (run step init (mergeEvents [1] [2] [1] [3])).map (fun s =>
      ((s.files 0).contains ⟨0,3⟩ && (s.files 1).contains ⟨1,6⟩,decide (s.Newer [1] ⟨0,3⟩ ⟨1,6⟩))) =
      some (true,false) := by decide +kernel
  have htear : (run step init tearEvents).map (fun s =>
      (s.files 0,decide (s.Newer [1] ⟨0,6⟩ ⟨0,4⟩))) = some ([⟨0,4⟩,⟨0,6⟩],false) := by decide +kernel
  refine ⟨?_,?_⟩
  · obtain ⟨s,hs,heval⟩ := map_eq_some_iff.mp hmerge
    simp only [Prod.mk.injEq,Bool.and_eq_true,List.contains_iff_mem,decide_eq_false_iff_not] at heval
    refine ⟨s,hs,by decide +kernel,fun h => ?_⟩
    rcases h.deeper [1] 0 1 (by decide) _ heval.1.1 _ heval.1.2 with hnewer | hexcused
    · exact heval.2 hnewer
    · cases hexcused
  · obtain ⟨s,hs,heval⟩ := map_eq_some_iff.mp htear
    simp only [Prod.mk.injEq,decide_eq_false_iff_not] at heval
    refine ⟨s,hs,by decide +kernel,fun h => ?_⟩
    have hlevel := h.level [1] 0
    rw [heval.1] at hlevel
    exact heval.2 (by simpa using hlevel)

end Chronicle
end TitanKV.Minikv
