import TitanKV.Minikv.Ages

/-! What a compaction does to the newest-wins view of the SSTables of a session. -/
namespace TitanKV.Minikv
open Layers List Function Option

/-- The entry is the first of its user key in the order of the run. -/
def Leads (e : Entry) (es : List Entry) : Prop :=
  e ∈ es ∧ ∀ x ∈ es, x.key.userKey = e.key.userKey → x = e ∨ e.key.Lt x.key

variable {e : Entry}

lemma leads_of_newest {es : List Entry} (hes : Ascending es) {k : Bytes}
    (h : newest es k = some e) : Leads e es := by
  have hk := userKey_of_newest h
  obtain ⟨-,as,bs,rfl,has⟩ := find?_eq_some_iff_append.mp h
  refine ⟨by simp,?_⟩
  intro x hx hxk
  rcases mem_append.mp hx with hx | hx
  · have hne := has x hx
    simp only [hxk,hk,decide_true,Bool.not_true] at hne
    cases hne
  · rcases mem_cons.mp hx with rfl | hx
    · exact .inl rfl
    · exact .inr ((pairwise_cons.mp (pairwise_append.mp hes).2.1).1 x hx)

lemma newest_of_leads {es : List Entry} (hes : Ordered es) (h : Leads e es) :
    newest es e.key.userKey = some e := by
  cases hn : newest es e.key.userKey with
  | none => exact (newest_eq_none_iff.mp hn e h.1 rfl).elim
  | some y =>
    have hyk := userKey_of_newest hn
    obtain ⟨-,as,bs,rfl,has⟩ := find?_eq_some_iff_append.mp hn
    rcases h.2 y (by simp) hyk with rfl | hlt
    · rfl
    · rcases mem_append.mp h.1 with he | he
      · have hne := has e he
        simp at hne
      · rcases mem_cons.mp he with rfl | he
        · rfl
        · have hle := (pairwise_cons.mp (pairwise_append.mp hes).2.1).1 e he
          exact (Entry.not_le_of_lt hlt hle).elim

variable {runs : List (List Entry)}

lemma leads_of_overlay (hasc : ∀ es ∈ runs, Ascending es)
    (hage : runs.Pairwise Before) {k : Bytes}
    (h : overlay (runs.map newest) k = some e) : Leads e runs.flatten ∧ e.key.userKey = k := by
  induction runs with
  | nil => cases h
  | cons es runs ih =>
    obtain ⟨hes,hage⟩ := pairwise_cons.mp hage
    rw [map_cons,overlay_cons] at h
    cases ho : overlay (runs.map newest) k with
    | some y =>
      rw [ho,some_or] at h
      obtain rfl := some.inj h
      obtain ⟨⟨hmem,hlead⟩,hk⟩ := ih (fun x hx => hasc x (by simp [hx])) hage ho
      refine ⟨⟨mem_append_right _ hmem,?_⟩,hk⟩
      intro x hx hxk
      rcases mem_append.mp hx with hx | hx
      · obtain ⟨run,hrun,hy⟩ := mem_flatten.mp hmem
        exact .inr (InternalKey.lt_of_seq_lt hxk.symm (hes run hrun x hx y hy))
      · exact hlead x hx hxk
    | none =>
      rw [ho,none_or] at h
      have hk := userKey_of_newest h
      obtain ⟨hmem,hlead⟩ := leads_of_newest (hasc es (by simp)) h
      refine ⟨⟨mem_append_left _ hmem,?_⟩,hk⟩
      intro x hx hxk
      rcases mem_append.mp hx with hx | hx
      · exact hlead x hx hxk
      · obtain ⟨run,hrun,hx⟩ := mem_flatten.mp hx
        have hnone := overlay_eq_none_iff.mp ho (newest run) (mem_map_of_mem hrun)
        exact (newest_eq_none_iff.mp hnone x hx (hxk.trans hk)).elim

/-- Sorting all entries of runs in order of age gives the newest-wins reading of the runs. -/
theorem newest_sort_flatten (hasc : ∀ es ∈ runs, Ascending es)
    (hage : runs.Pairwise Before) (k : Bytes) :
    newest (runs.flatten.insertionSort Entry.Le) k = overlay (runs.map newest) k := by
  have hperm := perm_insertionSort Entry.Le runs.flatten
  cases h : overlay (runs.map newest) k with
  | some e =>
    obtain ⟨⟨hmem,hlead⟩,rfl⟩ := leads_of_overlay hasc hage h
    apply newest_of_leads (pairwise_insertionSort Entry.Le _)
    exact ⟨hperm.mem_iff.mpr hmem,fun x hx => hlead x (hperm.mem_iff.mp hx)⟩
  | none =>
    apply newest_eq_none_iff.mpr
    intro e he
    obtain ⟨run,hrun,he⟩ := mem_flatten.mp (hperm.mem_iff.mp he)
    exact newest_eq_none_iff.mp (overlay_eq_none_iff.mp h _ (mem_map_of_mem hrun)) e he

namespace DBImpl

/-- The newest entry of a user key on one level, files added last first. -/
def levelEntry (db : DBImpl) (k : Bytes) (level : ℕ) : Option Entry :=
  overlay ((db.runsAt level).map newest) k

def firstEntry (db : DBImpl) (levels : List ℕ) (k : Bytes) : Option Entry :=
  levels.findSome? (db.levelEntry k)

def present (e : Option Entry) : Option Entry := e.filter fun e => !e.key.isDeletion

def view (db : DBImpl) (k : Bytes) : Option Entry :=
  present (db.firstEntry (range (db.options.maxLevel+1)) k)

/-- The levels below the destination of a merge and the destination itself. -/
def deeperLevels (db : DBImpl) (srcLevel : ℕ) : List ℕ :=
  range' (srcLevel+1) (db.options.maxLevel-srcLevel)

/-- For every user key that the source level holds and no shallower level hides: its newest
version there is a tombstone that hides nothing in the deeper levels, or it is a value and
the user key is not empty. -/
def MergeSafe (db : DBImpl) (srcLevel : ℕ) : Prop :=
  srcLevel<db.options.maxLevel → ∀ k e,
    db.firstEntry (range srcLevel) k = none → db.levelEntry k srcLevel = some e →
      if e.key.isDeletion then present (db.firstEntry (db.deeperLevels srcLevel) k) = none
      else k ≠ []

section Merge
variable {db db' : DBImpl} {src : ℕ}

/-- The merged run holds the newest version of each user key of the source level, but no
tombstones and nothing for the empty user key. -/
lemma newest_mergedTable (h : db.ByAge) (src : ℕ) (k : Bytes) :
    newest (mergedTable db.disk (db.version.getLevelFiles src)).entries k =
      if k = [] then none else present (db.levelEntry k src) := by
  have hflat : sourceEntries db.disk (db.version.getLevelFiles src) = (db.runsAt src).flatten := by
    rw [sourceEntries,Version.getLevelFiles,flatMap_map]
    rfl
  have hasc : ∀ es ∈ db.runsAt src, Ascending es := by
    intro es hes
    obtain ⟨m,-,rfl⟩ := mem_map.mp hes
    exact db.disk.ascending_entriesOf m.path
  rw [newest_merged,sortedEntries,hflat,newest_sort_flatten hasc (h.leveled.level src)]
  rfl

lemma levelEntry_of_merged (h : db.ByAge) (hm : Merged db src (db.version.getLevelFiles src) db')
    (k : Bytes) (i : ℕ) : db'.levelEntry k i =
      if i = src then none
      else if i = src+1 then (if k = [] then none else present (db.levelEntry k src)).or (db.levelEntry k i)
      else db.levelEntry k i := by
  have hnew := newest_mergedTable h src k
  rw [levelEntry,hm.runsAt h.placed]
  by_cases hkept : (mergedTable db.disk (db.version.getLevelFiles src)).entries = []
  · rw [hkept] at hnew
    rw [if_pos hkept,← hnew]
    by_cases hi : i = src
    · rw [if_pos hi,hi,update_self]
      rfl
    · rw [if_neg hi,update_of_ne hi]
      split <;> rfl
  · rw [if_neg hkept,← hnew]
    by_cases hi : i = src
    · rw [if_pos hi,hi,update_of_ne (Nat.succ_ne_self src).symm,update_self]
      rfl
    · rw [if_neg hi]
      by_cases hd : i = src+1
      · rw [if_pos hd,hd,update_self,map_append,overlay_append,map_singleton,
          overlay_singleton]
        rfl
      · rw [if_neg hd,update_of_ne hd,update_of_ne hi]
        rfl

end Merge

variable {k : Bytes}

lemma firstEntry_congr {db db' : DBImpl} {levels : List ℕ}
    (h : ∀ i ∈ levels, db'.levelEntry k i = db.levelEntry k i) :
    db'.firstEntry levels k = db.firstEntry levels k :=
  findSome?_congr (forall₂_same.mpr h) fun _ _ h => h

lemma range_split {src n : ℕ} (h : src<n) :
    range (n+1) = range src ++ src::range' (src+1) (n-src) := by
  rw [range_eq_range',range_eq_range',← range'_succ]
  have hlen : n+1 = src+(n-src+1) := by omega
  rw [hlen,← range'_append_1,Nat.zero_add]

variable {src : ℕ}

lemma firstEntry_deeper_ne {db : DBImpl} (h : db.ByAge) {e : Entry}
    (he : db.levelEntry k src = some e) : db.firstEntry (db.deeperLevels src) k ≠ some e := by
  have hfound : ∀ i, db.levelEntry k i = some e → ∃ run ∈ db.runsAt i, e ∈ run := by
    intro i hi
    rw [levelEntry,overlay,← map_reverse,findSome?_map] at hi
    obtain ⟨run,hrun,hn⟩ := exists_of_findSome?_eq_some hi
    exact ⟨run,mem_reverse.mp hrun,mem_of_find?_eq_some hn⟩
  intro hdeep
  obtain ⟨i,hi,hentry⟩ := exists_of_findSome?_eq_some hdeep
  obtain ⟨run,hrun,hmem⟩ := hfound src he
  obtain ⟨run',hrun',hmem'⟩ := hfound i hentry
  have hlt : src < i := (mem_range'_1.mp hi).1
  exact lt_irrefl _ (h.leveled.deeper src i hlt run' hrun' run hrun e hmem' e hmem)

/-- The case analysis of a merge at one key: `a` is what shallower levels hold, `s` what the
source level holds and `x` what the deeper levels hold. -/
lemma present_merge_iff {a s x : Option Entry} (hne : ∀ e, s = some e → x ≠ some e) :
    present (a.or ((if k = [] then none else present s).or x)) = present (a.or (s.or x)) ↔
      ∀ e, a = none → s = some e → if e.key.isDeletion then present x = none else k ≠ [] := by
  cases a with
  | some y => simp
  | none =>
    cases s with
    | none => simp [present]
    | some e =>
      have hx := hne e rfl
      cases hd : e.key.isDeletion with
      | true => simp [present,Option.filter,hd]
      | false =>
        by_cases hk : k = []
        · have hpx : present x ≠ some e := fun h => hx (eq_some_of_filter_eq_some h)
          simpa [present,Option.filter,hd,hk] using hpx
        · simp [present,Option.filter,hd,hk]

lemma view_merged {db db' : DBImpl} (h : db.ByAge) (hsrc : src<db.options.maxLevel)
    (hm : Merged db src (db.version.getLevelFiles src) db') (k : Bytes) :
    db'.view k = present ((db.firstEntry (range src) k).or
      ((if k = [] then none else present (db.levelEntry k src)).or
        (db.firstEntry (db.deeperLevels src) k))) := by
  obtain ⟨n,hn⟩ : ∃ n, db.options.maxLevel-src = n+1 := ⟨db.options.maxLevel-src-1,by omega⟩
  have hshallow : db'.firstEntry (range src) k = db.firstEntry (range src) k := by
    apply firstEntry_congr
    intro i hi
    have hlt := mem_range.mp hi
    rw [levelEntry_of_merged h hm,if_neg (by omega),if_neg (by omega)]
  have hdeep : db'.firstEntry (range' (src+1+1) n) k = db.firstEntry (range' (src+1+1) n) k := by
    apply firstEntry_congr
    intro i hi
    have hlt := (mem_range'_1.mp hi).1
    rw [levelEntry_of_merged h hm,if_neg (by omega),if_neg (by omega)]
  have hcons : ∀ (d : DBImpl) (i : ℕ) (is : List ℕ),
      d.firstEntry (i::is) k = (d.levelEntry k i).or (d.firstEntry is k) := by
    intro d i is
    rw [firstEntry,findSome?_cons]
    cases d.levelEntry k i <;> rfl
  rw [view,hm.options,range_split hsrc,hn,range'_succ,firstEntry,findSome?_append]
  rw [← firstEntry,← firstEntry,hshallow,hcons,hcons,hdeep,levelEntry_of_merged h hm,
    levelEntry_of_merged h hm,if_pos rfl,if_neg (Nat.succ_ne_self src),if_pos rfl,deeperLevels,hn,
    range'_succ,hcons,Option.none_or,Option.or_assoc]

lemma view_eq {db : DBImpl} (hsrc : src<db.options.maxLevel) (k : Bytes) :
    db.view k = present ((db.firstEntry (range src) k).or
      ((db.levelEntry k src).or (db.firstEntry (db.deeperLevels src) k))) := by
  rw [view,range_split hsrc,firstEntry,findSome?_append,findSome?_cons]
  cases h : db.levelEntry k src <;> rfl

/-- In every state of a session, merging a level returns Ok, and it leaves the view of every
key unchanged exactly when no tombstone of the level hides a value further down and the
level holds no value under the empty key. -/
theorem view_mergeLevel_iff (options : Options) (events : List Event)
    (hsession : ∀ e ∈ events, e.inSession = true) (src : ℕ) :
    (((fresh options).run events).mergeLevel src).1 = .Ok ∧
      ((∀ k, (((fresh options).run events).mergeLevel src).2.view k = ((fresh options).run events).view k) ↔
        ((fresh options).run events).MergeSafe src) := by
  have h : ((fresh options).run events).ByAge := (ByAge.fresh options).run hsession
  generalize (fresh options).run events = db at h ⊢
  obtain ⟨hok,hcases⟩ := mergeLevelFiles_cases db src (db.version.getLevelFiles src)
  refine ⟨hok,?_⟩
  rw [mergeLevel]
  rcases hcases with ⟨hnothing,hid⟩ | ⟨-,hsrc,hm⟩
  · rw [hid]
    refine iff_of_true (fun _ => rfl) ?_
    intro hsrc k e _ he
    rcases hnothing with hnil | hmax
    · have hfiles : filesAt db.version.levels src = [] := map_eq_nil_iff.mp hnil
      rw [levelEntry,runsAt,hfiles] at he
      cases he
    · exact (Nat.not_lt_of_le hmax hsrc).elim
  · have hkey : ∀ k, (db.mergeLevelFiles src (db.version.getLevelFiles src)).2.view k = db.view k ↔
        ∀ e, db.firstEntry (range src) k = none → db.levelEntry k src = some e →
          if e.key.isDeletion then present (db.firstEntry (db.deeperLevels src) k) = none
          else k ≠ [] := by
      intro k
      rw [view_merged h hsrc hm,view_eq hsrc]
      exact present_merge_iff fun e he => firstEntry_deeper_ne h he
    rw [forall_congr' hkey]
    exact ⟨fun hsafe _ => hsafe,fun hsafe => hsafe hsrc⟩

/-- A value and its overwrite in two files of level 0. -/
theorem view_mergeLevel_of_overwrite :
    (((fresh ⟨100,6⟩).run [.write [[⟨.put,[1],[2]⟩]],.freeze,.flush,.write [[⟨.put,[1],[3]⟩]],.freeze,
      .flush]).mergeLevel 0).2.view [1] =
      ((fresh ⟨100,6⟩).run [.write [[⟨.put,[1],[2]⟩]],.freeze,.flush,.write [[⟨.put,[1],[3]⟩]],.freeze,
        .flush]).view [1] := by
  refine (view_mergeLevel_iff ⟨100,6⟩ _ (by decide) 0).2.mpr ?_ [1]
  intro _ k e _ he
  have hruns : ((fresh ⟨100,6⟩).run [.write [[⟨.put,[1],[2]⟩]],.freeze,.flush,
      .write [[⟨.put,[1],[3]⟩]],.freeze,.flush]).runsAt 0 =
      [[⟨⟨[1],1,.value⟩,[2]⟩],[⟨⟨[1],2,.value⟩,[3]⟩]] := by decide +kernel
  rw [levelEntry,hruns] at he
  by_cases hk : [1] = k
  · subst hk
    obtain rfl : ⟨⟨[1],2,.value⟩,[3]⟩ = e := by simpa [overlay,newest] using he
    exact cons_ne_nil _ _
  · simp [overlay,newest,hk] at he

/-- A tombstone merged into level 1 is dropped, and the older value there is visible again. -/
theorem view_mergeLevel_resurrects :
    ((fresh ⟨100,6⟩).run [.write [[⟨.put,[1],[2]⟩]],.freeze,.flush,.compact 0,
      .write [[⟨.delete,[1],[]⟩]],.freeze,.flush]).view [1] = none ∧
      (((fresh ⟨100,6⟩).run [.write [[⟨.put,[1],[2]⟩]],.freeze,.flush,.compact 0,
        .write [[⟨.delete,[1],[]⟩]],.freeze,.flush]).mergeLevel 0).2.view [1] =
        some ⟨⟨[1],1,.value⟩,[2]⟩ := by
  decide +kernel

end DBImpl
end TitanKV.Minikv
