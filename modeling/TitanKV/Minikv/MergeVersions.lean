import TitanKV.Minikv.MergeRefinement
import TitanKV.Minikv.MergingOrder
import TitanKV.Minikv.SSTableLookup

/-! What a merge keeps of the versions in its sources. It goes through all entries in the order of
`InternalKeyCompare` and remembers the last user key, at first the empty one. -/
namespace TitanKV.Minikv
open List SSTableBuilder

section Sorting
variable {es : List KeyValue}

/-- The order of `std::sort` on keys with a trailer. -/
def TrailerLe (a b : KeyValue) : Prop := (trailerCompare a.1 b.1).isLE = true

instance : DecidableRel TrailerLe := fun _ _ => inferInstanceAs (Decidable (_ = true))

instance : IsTrans KeyValue TrailerLe := ⟨fun _ _ _ hab hbc => Std.TransCmp.isLE_trans hab hbc⟩

instance : Std.Total TrailerLe where
  total a b := by
    by_cases hab : TrailerLe a b
    · exact .inl hab
    · refine .inr ?_
      have hgt : trailerCompare a.1 b.1 = .gt := by
        cases h : trailerCompare a.1 b.1 <;> simp [TrailerLe,h] at hab ⊢
      simp [TrailerLe,Std.OrientedCmp.lt_of_gt hgt]

lemma sortByKey_eq (hlong : ∀ e ∈ es, 8≤e.1.length) : sortByKey es = es.insertionSort TrailerLe := by
  have hmap := map_insertionSort TrailerLe KeyLe id es fun a ha b hb => by
    rw [id,id,KeyLe,internalKeyCompare_eq (hlong a ha) (hlong b hb)]
    rfl
  rw [map_id,map_id] at hmap
  exact hmap.symm

lemma pairwise_sortByKey (hlong : ∀ e ∈ es, 8≤e.1.length) (hdistinct : (es.map Prod.fst).Nodup) :
    (sortByKey es).Pairwise fun a b => internalKeyCompare a.1 b.1 = .lt := by
  have hperm : (sortByKey es).Perm es := perm_insertionSort KeyLe es
  have hne : (sortByKey es).Pairwise fun a b => a.1 ≠ b.1 := by
    rw [← pairwise_map]
    exact (hperm.map Prod.fst).nodup_iff.mpr hdistinct
  have hle : (sortByKey es).Pairwise TrailerLe := by
    rw [sortByKey_eq hlong]
    exact pairwise_insertionSort TrailerLe es
  refine (hle.and hne).imp_of_mem ?_
  rintro a b ha hb ⟨hab,hkey⟩
  have ha' := hlong a (hperm.mem_iff.mp ha)
  have hb' := hlong b (hperm.mem_iff.mp hb)
  rw [internalKeyCompare_eq ha' hb']
  cases hc : trailerCompare a.1 b.1 with
  | lt => rfl
  | eq => exact (hkey (eq_of_trailerCompare ha' hb' hc)).elim
  | gt => simp [TrailerLe,hc] at hab

end Sorting

section Newest
variable {es es' : List KeyValue} {userKey : Bytes} {e : KeyValue}

lemma newest_congr (h : ∀ e, e ∈ es ↔ e ∈ es') : Newest es userKey e ↔ Newest es' userKey e := by
  simp only [Newest,h]

lemma find?_eq_some_iff_newest (hsorted : es.Pairwise fun a b => internalKeyCompare a.1 b.1 = .lt)
    (hlong : ∀ e ∈ es, 8≤e.1.length) :
    es.find? (fun x => internalKeyUserKey x.1 = userKey) = some e ↔ Newest es userKey e := by
  have hfirst : ∀ {e : KeyValue}, es.find? (fun x => internalKeyUserKey x.1 = userKey) = some e →
      Newest es userKey e := by
    intro e hfind
    obtain ⟨hkey,front,rest,rfl,hfront⟩ := find?_eq_some_iff_append.mp hfind
    simp only [decide_eq_true_eq] at hkey
    refine ⟨by simp,hkey,?_⟩
    intro e' he' hkey'
    rcases mem_append.mp he' with hmem | hmem
    · simpa [hkey'] using hfront e' hmem
    · rcases mem_cons.mp hmem with rfl | hmem
      · exact .inl rfl
      · have hlt := (pairwise_cons.mp (pairwise_append.mp hsorted).2.1).1 e' hmem
        exact .inr (newer_of_lt (hlong e (by simp)) (hlong e' he') hlt (hkey.trans hkey'.symm))
  refine ⟨hfirst,?_⟩
  intro hnewest
  have hsome : (es.find? fun x => internalKeyUserKey x.1 = userKey).isSome = true :=
    find?_isSome.mpr ⟨e,hnewest.1,by simp [hnewest.2.1]⟩
  obtain ⟨x,hx⟩ := Option.isSome_iff_exists.mp hsome
  rw [hx,(hfirst hx).unique hnewest]

/-- These are, in order, the newest entries of all user keys that are not deletions. -/
structure KeepsNewest (all kept : List KeyValue) : Prop where
  ordered : kept.Pairwise fun a b => internalKeyCompare a.1 b.1 = .lt
  complete : ∀ e, e ∈ kept ↔ Newest all (internalKeyUserKey e.1) e ∧ internalKeyType e.1 ≠ ValueType.deletion.code

/-- The loop keeps them exactly if it has nothing to keep of the empty key. -/
theorem keepsNewest_mergeEntries_iff (hlong : ∀ e ∈ es, 8≤e.1.length) (hdistinct : (es.map Prod.fst).Nodup) :
    KeepsNewest es (mergeEntries es) ↔ ∀ e, Newest es [] e → internalKeyType e.1 = ValueType.deletion.code := by
  have hsorted := pairwise_sortByKey hlong hdistinct
  have hlong' : ∀ e ∈ sortByKey es, 8≤e.1.length := fun e he => hlong e (mem_sortByKey.mp he)
  have hascend : KeysAscend (fun e : KeyValue => internalKeyUserKey e.1) (sortByKey es) :=
    hsorted.imp_of_mem fun ha hb hlt => userKey_le_of_lt (hlong' _ ha) (hlong' _ hb) hlt
  have hfind : ∀ {u : Bytes} {e : KeyValue},
      (sortByKey es).find? (fun x => internalKeyUserKey x.1 = u) = some e ↔ Newest es u e :=
    (find?_eq_some_iff_newest hsorted hlong').trans (newest_congr fun _ => mem_sortByKey)
  have hordered : (mergeEntries es).Pairwise fun a b => internalKeyCompare a.1 b.1 = .lt :=
    hsorted.sublist (keepNewest_sublist _ _ _ _)
  have hright := @keepNewest_right_iff _ _ (fun e => decide (internalKeyType e.1 = ValueType.deletion.code))
    _ hascend
  simp only [hfind,decide_eq_true_eq,decide_eq_false_iff_not] at hright
  rw [← hright]
  exact ⟨KeepsNewest.complete,fun hcomplete => ⟨hordered,hcomplete⟩⟩

end Newest

section Adding
variable {codec : Codec}

lemma SSTableBuilder.added_of_ok {b : SSTableBuilder} {es : List KeyValue}
    (h : (b.addWhileOk codec es).1.ok = true) :
    (b.addWhileOk codec es).2.2 = es := by
  induction es generalizing b with
  | nil => rfl
  | cons e es ih =>
    rw [addWhileOk] at h ⊢
    split
    · rename_i hok
      rw [if_pos hok] at h
      exact congrArg (e::·) (ih h)
    · rename_i hfail
      rw [if_neg hfail] at h
      exact (hfail h).elim

end Adding

namespace Store
variable (codec : Codec) (s : Store) (reads : Bytes → ReadFaults)

def sourcesHold (srcFiles : List Bytes) : List KeyValue :=
  srcFiles.flatMap fun path => ((s.files.get path).bind (tableEntries codec)).getD []

/-- The builder's loop in `mergeLevelFiles`: the status that it ends with and the entries that were added. -/
def addedEntries (faults : WriteFaults) (srcFiles : List Bytes) : Status × List KeyValue :=
  let added := (init s.blockSize .snappy faults.opened faults.writes).addWhileOk codec
    (mergeEntries (s.readSources codec reads srcFiles).2)
  (added.1,added.2.2)

/-- The sources are listed and stored no more, and no other file is listed. -/
structure Retired (srcLevel : ℕ) (srcFiles : List Bytes) (after : Store) : Prop where
  levels : after.levels = eraseFiles s.levels srcLevel fun m => srcFiles.contains m.path
  files : ∀ path ∈ srcFiles, after.files.get path = none

/-- A merge that adds what it has to keep has added the newest versions, and where none remains it only retires the
sources. -/
def MergesNewest (srcLevel : ℕ) (srcFiles : List Bytes) : Prop := ∀ faults,
  ((s.addedEntries codec reads faults srcFiles).1.ok = true →
    KeepsNewest (s.sourcesHold codec srcFiles) (s.addedEntries codec reads faults srcFiles).2) ∧
  ((∀ u e, Newest (s.sourcesHold codec srcFiles) u e → internalKeyType e.1 = ValueType.deletion.code) →
    (s.mergeLevelFiles codec reads faults srcLevel srcFiles).1.ok = true →
      s.Retired srcLevel srcFiles (s.mergeLevelFiles codec reads faults srcLevel srcFiles).2)

variable {codec s reads} {srcLevel : ℕ} {srcFiles : List Bytes}

lemma perm_readSources (hopen : ∀ path ∈ srcFiles, ¬ s.OpenFails reads path)
    (hscan : ∀ path ∈ srcFiles, ¬ s.ScanFails codec reads path) :
    (s.readSources codec reads srcFiles).2.Perm (s.sourcesHold codec srcFiles) := by
  induction srcFiles with
  | nil => exact Perm.nil
  | cons path srcFiles ih =>
    obtain ⟨r,hr⟩ := Option.ne_none_iff_exists'.mp (hopen path mem_cons_self)
    have hok := ok_of_not_scanFails hr (hscan path mem_cons_self)
    have hrest := ih (fun p hp => hopen p (mem_cons_of_mem path hp)) fun p hp => hscan p (mem_cons_of_mem path hp)
    have hentries := tableEntries_of_scan hr hok
    rw [sourcesHold,flatMap_cons,hentries,Option.getD_some,readSources,hr]
    dsimp only
    rw [if_pos hok]
    exact (perm_insertionSort KeyLe _).append hrest

lemma retired_mergeLevelFiles (faults : WriteFaults) (hne : srcFiles ≠ []) (hlevel : srcLevel<s.maxLevel)
    (hscan : ∀ path ∈ srcFiles, ¬ s.ScanFails codec reads path)
    (hnone : mergeEntries (s.readSources codec reads srcFiles).2 = [])
    (hok : (s.mergeLevelFiles codec reads faults srcLevel srcFiles).1.ok = true) :
    s.Retired srcLevel srcFiles (s.mergeLevelFiles codec reads faults srcLevel srcFiles).2 := by
  rw [mergeLevelFiles_eq faults hne hlevel,if_neg (by simp [ok_readSources_iff.mpr hscan])] at hok ⊢
  rw [mergeInto,hnone] at hok ⊢
  simp only [addWhileOk,Status.ok_Ok,Bool.true_eq_false,if_false,isEmpty_nil,if_true] at hok ⊢
  split at hok
  · rename_i hfail
    rw [hfail] at hok
    cases hok
  · rename_i hfinished
    rw [if_neg hfinished]
    refine ⟨rfl,?_⟩
    intro path hpath
    exact (Directory.get_foldl_unlink srcFiles _ path).trans (if_pos hpath)

/-- For readable sources with distinct internal keys: a merge keeps exactly the newest versions if and only if the
newest version of the empty key, where there is one, is a deletion. -/
theorem mergesNewest_iff (hne : srcFiles ≠ []) (hlevel : srcLevel<s.maxLevel)
    (hopen : ∀ path ∈ srcFiles, ¬ s.OpenFails reads path) (hscan : ∀ path ∈ srcFiles, ¬ s.ScanFails codec reads path)
    (hlong : ∀ e ∈ s.sourcesHold codec srcFiles, 8≤e.1.length)
    (hdistinct : ((s.sourcesHold codec srcFiles).map Prod.fst).Nodup) :
    s.MergesNewest codec reads srcLevel srcFiles ↔
      ∀ e, Newest (s.sourcesHold codec srcFiles) [] e → internalKeyType e.1 = ValueType.deletion.code := by
  have hperm := perm_readSources hopen hscan
  have hnewest : ∀ {u : Bytes} {e : KeyValue}, Newest (s.readSources codec reads srcFiles).2 u e ↔
      Newest (s.sourcesHold codec srcFiles) u e := newest_congr fun _ => hperm.mem_iff
  have hkeeps : ∀ {kept : List KeyValue}, KeepsNewest (s.sourcesHold codec srcFiles) kept ↔
      KeepsNewest (s.readSources codec reads srcFiles).2 kept := by
    intro kept
    constructor
    · exact fun h => ⟨h.ordered,fun e => (h.complete e).trans (and_congr_left' hnewest.symm)⟩
    · exact fun h => ⟨h.ordered,fun e => (h.complete e).trans (and_congr_left' hnewest)⟩
  have hread := keepsNewest_mergeEntries_iff (fun e he => hlong e (hperm.mem_iff.mp he))
    ((hperm.map Prod.fst).nodup_iff.mpr hdistinct)
  simp only [hnewest] at hread
  rw [← hread]
  constructor
  · intro h
    have hcalm := @Steady.init [] s.blockSize .snappy (by simp)
    have hadded := congrArg (fun r => r.1.ok)
      (@Steady.addWhileOk codec _ hcalm (mergeEntries (s.readSources codec reads srcFiles).2))
    have hkept := hkeeps.mp ((h ⟨true,[],true,.full,[]⟩).1 hadded)
    rwa [addedEntries,added_of_ok hadded] at hkept
  · intro h faults
    constructor
    · intro hok
      rw [hkeeps,addedEntries,added_of_ok hok]
      exact h
    · intro hnone hok
      refine retired_mergeLevelFiles faults hne hlevel hscan ?_ hok
      apply eq_nil_iff_forall_not_mem.mpr
      intro e he
      obtain ⟨hmem,hlive⟩ := (h.complete e).mp he
      exact hlive (hnone _ e (hnewest.mp hmem))

/-- A store with one table, which was built without a failing call. -/
def holding (es : List KeyValue) : Store :=
  let content := (((init 4096 .snappy true []).addAll markingCodec es).finish markingCodec).2.file.content
  { frozenStore with
    files := [(frozenStore.flushPath,content)], levels := pushFile frozenStore.levels 0 ⟨frozenStore.flushPath,1⟩ }

def twoKeys : List KeyValue :=
  [((⟨[97],2,.deletion⟩ : InternalKey).encode,[]),((⟨[97],1,.value⟩ : InternalKey).encode,[118]),
    ((⟨[98],3,.value⟩ : InternalKey).encode,[119])]

theorem mergesNewest_of_twoKeys : (holding twoKeys).sourcesHold markingCodec [frozenStore.flushPath] = twoKeys ∧
    (holding twoKeys).MergesNewest markingCodec calmReads 0 [frozenStore.flushPath] := by
  have hold : (holding twoKeys).sourcesHold markingCodec [frozenStore.flushPath] = twoKeys := by decide +kernel
  have hsome : ((holding twoKeys).openSource calmReads frozenStore.flushPath).isSome = true := by decide +kernel
  have hall : ((holding twoKeys).openSource calmReads frozenStore.flushPath).all
    (fun r => (r.scan markingCodec [] []).1.ok) = true := by decide +kernel
  refine ⟨hold,(mergesNewest_iff (by simp) (by decide) ?_ ?_ ?_ ?_).mpr ?_⟩
  · intro path hpath hfails
    rw [mem_singleton.mp hpath,OpenFails] at hfails
    rw [hfails] at hsome
    cases hsome
  · rintro path hpath ⟨r,hr,hfails⟩
    rw [mem_singleton.mp hpath] at hr
    rw [hr,Option.all_some,hfails] at hall
    cases hall
  · rw [hold]
    decide
  · rw [hold]
    decide
  · rw [hold]
    rintro e ⟨hmem,hkey,-⟩
    revert hkey e
    decide

/-- A table with an entry of the empty key alone: nothing is added, and the table is retired. -/
theorem merge_drops_emptyKey : (holding [((⟨[],1,.value⟩ : InternalKey).encode,[118])]).sourcesHold markingCodec
      [frozenStore.flushPath] = [((⟨[],1,.value⟩ : InternalKey).encode,[118])] ∧
    (holding [((⟨[],1,.value⟩ : InternalKey).encode,[118])]).addedEntries markingCodec calmReads
      ⟨true,[],true,.full,[]⟩
      [frozenStore.flushPath] = (.Ok,[]) ∧
    ((holding [((⟨[],1,.value⟩ : InternalKey).encode,[118])]).mergeLevelFiles markingCodec calmReads
      ⟨true,[],true,.full,[]⟩ 0 [frozenStore.flushPath]).2.files.get frozenStore.flushPath = none := by
  decide +kernel

end Store
end TitanKV.Minikv
