import TitanKV.Services.Rag.HnswAttach

/-! What can be found again after a sequence of calls of `add`. On the bottom layer the first `m+1` nodes
link to one another; after that every node has its `m` links, and no later node ever gets a link to it. -/
namespace TitanKV.Services.Rag.HNSWIndex
open Prod
open Minikv (Bytes)
open Goroutine List
open Exploration (Reaches)

variable {F S : Type*} [LinearOrder S] {score : List F → List F → S} {h h' : HNSWIndex F} {t : Goroutine F}

/-- The bottom layer after adding `ids` in this order. -/
structure Woven (m : ℕ) (ids : List Bytes) (h : HNSWIndex F) : Prop where
  sound : h.Sound
  m_eq : h.m = m
  live_iff : ∀ x, h.Live x ↔ x ∈ ids
  nodup : ids.Nodup
  entry_eq : ids.head? = some h.entry
  nodup_links : ∀ x, (h.linksAt 0 x).Nodup
  no_loop : ∀ x, x ∉ h.linksAt 0 x
  core : ∀ x ∈ ids.take (m+1), ∀ y, y ∈ h.linksAt 0 x ↔ y ∈ ids.take (m+1) ∧ y ≠ x
  full : ∀ x ∈ ids.drop (m+1), m≤(h.linksAt 0 x).length

namespace Woven
variable {m : ℕ} {ids : List Bytes} {id : Bytes}

section
variable (hw : Woven m ids h)
include hw

lemma nodup_core : (ids.take (m+1)).Nodup := hw.nodup.sublist (ids.take_sublist _)

lemma length_core {x : Bytes} (hx : x ∈ ids.take (m+1)) :
    (h.linksAt 0 x).length + 1 = (ids.take (m+1)).length := by
  have hperm : List.Perm (x :: h.linksAt 0 x) (ids.take (m+1)) := by
    rw [perm_ext_iff_of_nodup (nodup_cons.mpr ⟨hw.no_loop x,hw.nodup_links x⟩) hw.nodup_core]
    intro y
    rw [mem_cons,hw.core x hx]
    constructor
    · rintro (rfl | hy)
      · exact hx
      · exact hy.1
    · intro hy
      exact or_iff_not_imp_left.mpr fun hne => ⟨hy,hne⟩
  exact hperm.length_eq

/-- From a node of the core a walk along the bottom layer visits exactly the core. -/
lemma reaches_iff {start : Bytes} (hstart : start ∈ ids.take (m+1)) (x : Bytes) :
    Reaches (h.linksAt 0) start x ↔ x ∈ ids.take (m+1) := by
  constructor
  · intro hreach
    induction hreach with
    | refl => exact hstart
    | tail _ hlink ih => exact ((hw.core _ ih _).mp hlink).1
  · intro hx
    by_cases heq : x = start
    · exact heq ▸ Relation.ReflTransGen.refl
    · exact Relation.ReflTransGen.single ((hw.core start hstart x).mpr ⟨hx,heq⟩)

lemma entry_ne_nil : h.entry ≠ [] :=
  hw.sound.entry_ne_nil ((hw.live_iff h.entry).mpr (mem_of_mem_head? hw.entry_eq))

lemma entry_mem_core : h.entry ∈ ids.take (m+1) := by
  cases ids with
  | nil => cases hw.entry_eq
  | cons x ids =>
    obtain rfl := Option.some.inj hw.entry_eq
    exact mem_cons_self

/-- A node that is already there has its `m` links as soon as there are `m+1` nodes. -/
lemma full_of_length (hlength : m+1 ≤ ids.length) {x : Bytes} (hx : x ∈ ids) : m≤(h.linksAt 0 x).length := by
  rw [← ids.take_append_drop (m+1),mem_append] at hx
  rcases hx with hx | hx
  · have hcore := hw.length_core hx
    rw [length_take,min_eq_left hlength] at hcore
    omega
  · exact hw.full x hx

end

lemma single (hsound : h.Sound) (hm : h.m = m) (hlive : ∀ x, h.Live x ↔ x = h.entry)
    (hlinks : ∀ x, h.linksAt 0 x = []) :
    Woven m [h.entry] h := by
  refine ⟨hsound,hm,by simpa using hlive,nodup_singleton _,rfl,by simp [hlinks],by simp [hlinks],?_,by simp⟩
  intro x hx y
  simp only [take_succ_cons,take_nil,mem_singleton] at hx ⊢
  simp [hlinks,hx]

section Step
variable {vec : List F} {l : ℕ} {start : Bytes} {out seen : List Bytes}

section
variable (hw : Woven m ids h) (hid : id ∉ ids) (hatt : Attached h.Live id (h.insertNode id vec l) h' start out seen)
include hw hid hatt

lemma linksAt_attached : h'.linksAt 0 id = out ∧ ∀ x ≠ id, h'.linksAt 0 x =
      if x ∈ out ∧ (h.linksAt 0 x).length < m then h.linksAt 0 x ++ [id] else h.linksAt 0 x := by
  have hlive : ¬ h.Live id := mt (hw.live_iff id).mp hid
  have hown := hatt.own
  have hothers := hatt.others
  rw [linksAt_insertNode_of_not_live vec hlive] at hown hothers
  refine ⟨by rw [hown,linksAt_of_not_live hlive,nil_append],fun x hx => ?_⟩
  rw [hothers x hx,show (h.insertNode id vec l).m = m from hw.m_eq]

lemma seen_attached :
    start ∈ ids ∧ (∀ x, x ∈ seen ↔ Reaches (h.linksAt 0) start x) ∧ (∀ x ∈ seen, x ∈ ids) ∧
      out.length = min (m*2) seen.length := by
  have hlive : ¬ h.Live id := mt (hw.live_iff id).mp hid
  have hmem := hatt.mem_seen
  rw [linksAt_insertNode_of_not_live vec hlive] at hmem
  have hclosed : h.Closed h.Live := fun lc x _ nb hnb => (hw.sound.links_stand lc x nb hnb).live
  refine ⟨(hw.live_iff start).mp hatt.start,hmem,fun x hx => ?_,?_⟩
  · exact (hw.live_iff x).mp (hclosed.reaches ((hmem x).mp hx) hatt.start)
  · rw [hatt.length_out,show (h.insertNode id vec l).m = m from hw.m_eq]

/-- While there are at most `m` nodes, the new one is linked with all of them. -/
lemma core_step (hlength : ids.length ≤ m) :
    ∀ x ∈ ids ++ [id], ∀ y, y ∈ h'.linksAt 0 x ↔ y ∈ ids ++ [id] ∧ y ≠ x := by
  obtain ⟨hown,hothers⟩ := hw.linksAt_attached hid hatt
  obtain ⟨hstart,hmem,_,hout⟩ := hw.seen_attached hid hatt
  have htake : ids.take (m+1) = ids := take_of_length_le (by omega)
  have hseen (x : Bytes) : x ∈ seen ↔ x ∈ ids := by
    rw [hmem,hw.reaches_iff (htake.symm ▸ hstart),htake]
  have hperm : List.Perm seen ids := (perm_ext_iff_of_nodup hatt.nodup hw.nodup).mpr hseen
  have hall : List.Perm out seen := hatt.kept.perm_of_length_le (by
    have := hperm.length_eq
    omega)
  have hmemout (x : Bytes) : x ∈ out ↔ x ∈ ids := hall.mem_iff.trans (hseen x)
  intro x hx y
  rcases mem_append.mp hx with hx | hx
  · have hne : x ≠ id := fun heq => hid (heq ▸ hx)
    have hroom : (h.linksAt 0 x).length < m := by
      have hcore := hw.length_core (htake.symm ▸ hx)
      rw [htake] at hcore
      omega
    have hcore := hw.core x (htake.symm ▸ hx) y
    rw [htake] at hcore
    rw [hothers x hne,if_pos ⟨(hmemout x).mpr hx,hroom⟩,mem_append,mem_append,hcore,mem_singleton]
    constructor
    · rintro (hy | rfl)
      · exact ⟨.inl hy.1,hy.2⟩
      · exact ⟨.inr rfl,Ne.symm hne⟩
    · rintro ⟨hy | rfl,hyx⟩
      · exact .inl ⟨hy,hyx⟩
      · exact .inr rfl
  · obtain rfl := mem_singleton.mp hx
    rw [hown,hmemout,mem_append,mem_singleton]
    constructor
    · exact fun hy => ⟨.inl hy,fun heq => hid (heq ▸ hy)⟩
    · rintro ⟨hy | hy,hyx⟩
      · exact hy
      · exact absurd hy hyx

/-- Once there are more, the lists of the older nodes are full. -/
lemma full_step (hlength : m+1 ≤ ids.length) :
    (∀ x ≠ id, h'.linksAt 0 x = h.linksAt 0 x) ∧ m≤out.length := by
  obtain ⟨_,hothers⟩ := hw.linksAt_attached hid hatt
  obtain ⟨hstart,hmem,hinside,hout⟩ := hw.seen_attached hid hatt
  constructor
  · intro x hx
    rw [hothers x hx,if_neg]
    rintro ⟨hxout,hroom⟩
    have hfull := hw.full_of_length hlength (hinside x (hatt.kept.subset hxout))
    omega
  · -- the search has seen its start and the neighbours of its start
    have hsub : List.Subperm (start :: h.linksAt 0 start) seen := by
      refine subperm_of_subset (nodup_cons.mpr ⟨hw.no_loop start,hw.nodup_links start⟩) fun x hx => (hmem x).mpr ?_
      rcases mem_cons.mp hx with rfl | hx
      · exact Relation.ReflTransGen.refl
      · exact Relation.ReflTransGen.single hx
    have hle := hsub.length_le
    have hfull := hw.full_of_length hlength hstart
    rw [length_cons] at hle
    omega

theorem step (hsound : h'.Sound) : Woven m (ids++[id]) h' := by
  obtain ⟨hown,hothers⟩ := hw.linksAt_attached hid hatt
  obtain ⟨_,_,hinside,_⟩ := hw.seen_attached hid hatt
  have hnotout : id ∉ out := fun hmem => hid (hinside id (hatt.kept.subset hmem))
  have hnotlinked (x : Bytes) : id ∉ h.linksAt 0 x :=
    fun hmem => hid ((hw.live_iff id).mp (hw.sound.links_stand 0 x id hmem).live)
  refine ⟨hsound,hatt.grows.m_eq.trans hw.m_eq,fun x => ?_,?_,?_,fun x => ?_,fun x => ?_,?_,?_⟩
  · rw [live_iff_mem,hatt.grows.names_eq,← live_iff_mem,live_insertNode,hw.live_iff,mem_append,mem_singleton,or_comm]
  · exact nodup_append.mpr ⟨hw.nodup,nodup_singleton id,by
      rintro x hx y hy rfl
      exact hid (mem_singleton.mp hy ▸ hx)⟩
  · rw [head?_append,hw.entry_eq,hatt.grows.entry_eq]
    rfl
  · by_cases hx : x = id
    · subst hx
      rw [hown]
      exact Exploration.nodup_of_subperm hatt.kept hatt.nodup
    · rw [hothers x hx]
      split
      · exact nodup_append.mpr ⟨hw.nodup_links x,nodup_singleton id,by
          rintro y hy z hz rfl
          exact hnotlinked x (mem_singleton.mp hz ▸ hy)⟩
      · exact hw.nodup_links x
  · by_cases hx : x = id
    · subst hx
      rwa [hown]
    · rw [hothers x hx]
      split
      · rw [mem_append,mem_singleton,not_or]
        exact ⟨hw.no_loop x,hx⟩
      · exact hw.no_loop x
  · by_cases hlength : ids.length ≤ m
    · rw [take_of_length_le (by rw [length_append,length_singleton]; omega)]
      exact hw.core_step hid hatt hlength
    · have htake : (ids++[id]).take (m+1) = ids.take (m+1) := take_append_of_le_length (by omega)
      rw [htake]
      intro x hx
      have hne : x ≠ id := fun heq => hid (heq ▸ mem_of_mem_take hx)
      rw [(hw.full_step hid hatt (by omega)).1 x hne]
      exact hw.core x hx
  · by_cases hlength : ids.length ≤ m
    · rw [drop_eq_nil_of_le (by rw [length_append,length_singleton]; omega)]
      simp
    · obtain ⟨hsame,hfull⟩ := hw.full_step hid hatt (by omega)
      rw [drop_append_of_le_length (by omega)]
      intro x hx
      rcases mem_append.mp hx with hx | hx
      · have hne : x ≠ id := fun heq => hid (heq ▸ mem_of_mem_drop hx)
        rw [hsame x hne]
        exact hw.full x hx
      · obtain rfl := mem_singleton.mp hx
        rwa [hown]

end

end Step

lemma topKLocked_eq_ok (score : List F → List F → S) (hw : Woven m ids h) (hlength : ids.length ≤ m+1) (q : List F)
    {k : ℕ} (hk : (ids.length : ℤ) ≤ goInt (k*4)) :
    ∃ hits, h.topKLocked score q k = .ok hits ∧ hits.length = min k ids.length := by
  have htake : ids.take (m+1) = ids := take_of_length_le hlength
  have htop : h.Stands (0+h.maxLayer) h.entry := by
    rw [Nat.zero_add]
    exact (hw.sound.entry_stands hw.entry_ne_nil).1
  have hnodes : h.nodes.length ≠ 0 :=
    fun hzero => hw.entry_ne_nil (hw.sound.entry_eq_nil_iff.mpr (length_eq_zero_iff.mp hzero))
  obtain ⟨curr,hdescend,hcurr,_⟩ := descendLocked_eq_ok score q hw.sound.links_stand htop
  have hmem : curr ∈ ids := (hw.live_iff curr).mp hcurr.live
  obtain ⟨ef,hef⟩ := Int.eq_ofNat_of_zero_le ((Int.natCast_nonneg _).trans hk)
  obtain ⟨out,seen,hout,hnodup,hseen,hsub,hkept⟩ := searchLayerLocked_eq_ok score q hw.sound.links_stand hcurr ef
  have hperm : List.Perm seen ids := by
    rw [perm_ext_iff_of_nodup hnodup hw.nodup]
    intro x
    rw [hseen,hw.reaches_iff (htake.symm ▸ hmem),htake]
  have hpos : 1 ≤ ids.length := length_pos_of_mem hmem
  have hall : out.length = ids.length := by
    rw [hkept (by omega),hperm.length_eq]
    omega
  obtain ⟨hits,hhits,hids⟩ := scored_eq_ok score q fun id (hid : id ∈ out.take k) =>
    (Reaches.stands hw.sound.links_stand hcurr ((hseen id).mp (hsub.subset (mem_of_mem_take hid)))).live
  refine ⟨hits.map fun hit => ⟨hit.1,hit.2⟩,?_,?_⟩
  · rw [topKLocked,if_neg (not_or.mpr ⟨hnodes,hw.entry_ne_nil⟩)]
    simp only [hdescend,hef,hout,Int.toNat_natCast,hhits]
  · have hlength := congrArg length hids
    rw [length_map,length_take,hall] at hlength
    rw [length_map,hlength]

end Woven

/-- The empty id was added first: the next node has become the entry, and no link leads to the first. -/
structure Lost (h : HNSWIndex F) : Prop where
  sound : h.Sound
  entry_ne_nil : h.entry ≠ []
  m_eq : h.m = 16
  live : h.Live []
  not_linked : ∀ lc x, [] ∉ h.linksAt lc x

lemma Lost.not_reaches (hlost : h.Lost) : ¬ Reaches (h.linksAt 0) h.entry [] := by
  intro hreach
  cases hreach.cases_tail with
  | inl heq => exact hlost.entry_ne_nil heq.symm
  | inr hlast =>
    obtain ⟨x,_,hlink⟩ := hlast
    exact hlost.not_linked 0 x hlink

section Calls
variable {id : Bytes} {vec : List F} {l : Fin 9}

lemma add_attached (score : List F → List F → S) (hdim : vec.length = t.index.dim) (hm : 1≤t.index.m)
    (hsound : t.index.Sound) (hentry : t.index.entry ≠ []) (hlive : ¬ t.index.Live id) (hl : l≤t.index.maxLayer)
    {P : Bytes → Prop} (hP : t.index.Closed P) (hstart : P t.index.entry) (hnot : ¬ P id) :
    ∃ t' start out seen, add score .reentrant id vec l t = (.ok (),t') ∧ t'.index.Sound ∧
      Attached P id (t.index.insertNode id vec l) t'.index start out seen := by
  obtain ⟨t',start,out,seen,hadd,hafter,hatt⟩ :=
    addLocked_attached (t := t.release .Lock) vec score hm hsound hentry hlive hl hP hstart hnot
  refine ⟨t'.release .Unlock,start,out,seen,?_,hafter,hatt⟩
  rw [add,if_neg (not_not.mpr hdim),under_reentrant,hadd,deferred_ok]

lemma add_of_above (score : List F → List F → S) (hdim : vec.length = t.index.dim) (hsound : t.index.Sound)
    (hentry : t.index.entry ≠ []) (hlive : ¬ t.index.Live id) (hl : t.index.maxLayer<l) :
    (add score .reentrant id vec l t).1 = .error (.panic .indexOutOfRange) := by
  have hid : id ≠ t.index.entry := fun heq => hlive (heq ▸ (hsound.entry_stands hentry).1.live)
  rw [add,if_neg (not_not.mpr hdim),under_reentrant,deferred_result]
  exact addLocked_of_above (t := t.release .Lock) score hsound hentry vec hid hl

lemma closed_live (hsound : h.Sound) : h.Closed h.Live := fun lc x _ nb hnb => (hsound.links_stand lc x nb hnb).live

end Calls

section Sequences
variable {adds : List (Bytes × List F × Fin 9)}

/-- The ids of the calls are new and pairwise different. -/
def Fresh (adds : List (Bytes × List F × Fin 9)) (h : HNSWIndex F) : Prop :=
  (adds.map fst).Nodup ∧ ∀ a ∈ adds, ¬ h.Live a.1

lemma Fresh.tail {a : Bytes × List F × Fin 9} (hfresh : Fresh (a::adds) h)
    (hlive : ∀ x, h'.Live x ↔ x = a.1 ∨ h.Live x) :
    Fresh adds h' := by
  obtain ⟨hnot,hnodup⟩ := nodup_cons.mp hfresh.1
  refine ⟨hnodup,fun b hb => ?_⟩
  rw [hlive,not_or]
  exact ⟨fun heq => hnot (heq ▸ mem_map_of_mem hb),hfresh.2 b (mem_cons_of_mem a hb)⟩

lemma Attached.live_iff {P : Bytes → Prop} {id : Bytes} {vec : List F} {l : ℕ} {start : Bytes}
    {out seen : List Bytes} (hatt : Attached P id (h.insertNode id vec l) h' start out seen) (x : Bytes) :
    h'.Live x ↔ x = id ∨ h.Live x := by
  rw [live_iff_mem,hatt.grows.names_eq,← live_iff_mem,live_insertNode]

variable {ids : List Bytes}

lemma Woven.add (score : List F → List F → S) {m : ℕ} (hm : 1 ≤ m) (hw : Woven m ids t.index) {id : Bytes}
    {vec : List F} {l : Fin 9} (hdim : vec.length = t.index.dim) (hlive : ¬ t.index.Live id)
    (hl : l≤t.index.maxLayer) :
    ∃ t', HNSWIndex.add score .reentrant id vec l t = (.ok (),t') ∧ Woven m (ids++[id]) t'.index ∧
      t'.index.dim = t.index.dim ∧
      t'.index.maxLayer = t.index.maxLayer ∧ ∀ x, t'.index.Live x ↔ x = id ∨ t.index.Live x := by
  obtain ⟨t',start,out,seen,hadd,hsound,hatt⟩ :=
    add_attached score hdim (hw.m_eq.symm ▸ hm) hw.sound hw.entry_ne_nil hlive hl
    (closed_live hw.sound) (hw.sound.entry_stands hw.entry_ne_nil).1.live hlive
  exact ⟨t',hadd,hw.step (mt (hw.live_iff id).mpr hlive) hatt hsound,hatt.grows.dim_eq,hatt.grows.maxLayer_eq,
    hatt.live_iff⟩

lemma mergeSnapshot_cons_of_error {mutex : Mutex} {a : Bytes × List F × Fin 9} {f : Fault}
    (hadd : (add score mutex a.1 a.2.1 a.2.2 t).1 = .error f) :
    (mergeSnapshot score mutex (a::adds) t).1 = .error f := by
  obtain ⟨id,vec,l⟩ := a
  rw [mergeSnapshot]
  rcases hresult : add score mutex id vec l t with ⟨_ | _,t'⟩
  · rwa [hresult] at hadd
  · rw [hresult] at hadd
    cases hadd

variable (score)

lemma mergeSnapshot_woven {m : ℕ} (hm : 1 ≤ m) (hw : Woven m ids t.index)
    (hdim : ∀ a ∈ adds, a.2.1.length = t.index.dim) (hfresh : Fresh adds t.index)
    (hl : ∀ a ∈ adds, a.2.2≤t.index.maxLayer) :
    ∃ t', mergeSnapshot score .reentrant adds t = (.ok (),t') ∧ Woven m (ids ++ adds.map fst) t'.index := by
  induction adds generalizing t ids with
  | nil => exact ⟨t,rfl,by simpa using hw⟩
  | cons a adds ih =>
    obtain ⟨t',hadd,hw',hdim',hmax,hlive⟩ := hw.add score hm (hdim _ mem_cons_self) (hfresh.2 _ mem_cons_self)
      (hl _ mem_cons_self)
    obtain ⟨t'',hrest,hw''⟩ := ih (t := t') hw' (fun a ha => (hdim a (mem_cons_of_mem _ ha)).trans hdim'.symm)
      (hfresh.tail hlive)
      fun a ha => (hl a (mem_cons_of_mem _ ha)).trans hmax.ge
    refine ⟨t'',?_,by simpa using hw''⟩
    rw [mergeSnapshot,hadd]
    exact hrest

lemma mergeSnapshot_of_above {m : ℕ} (hm : 1 ≤ m) (hw : Woven m ids t.index)
    (hdim : ∀ a ∈ adds, a.2.1.length = t.index.dim) (hfresh : Fresh adds t.index)
    (hl : ¬ ∀ a ∈ adds, a.2.2≤t.index.maxLayer) :
    (mergeSnapshot score .reentrant adds t).1 ≠ .ok () := by
  induction adds generalizing t ids with
  | nil => simp at hl
  | cons a adds ih =>
    obtain ⟨id,vec,l⟩ := a
    have hlive := hfresh.2 _ mem_cons_self
    by_cases hfirst : l≤t.index.maxLayer
    · obtain ⟨t',hadd,hw',hdim',hmax,hlive'⟩ := hw.add score hm (hdim _ mem_cons_self) hlive hfirst
      rw [mergeSnapshot,hadd]
      refine ih (t := t') hw' (fun a ha => (hdim a (mem_cons_of_mem _ ha)).trans hdim'.symm) (hfresh.tail hlive')
        fun hall => hl ?_
      rw [hmax] at hall
      exact forall_mem_cons.mpr ⟨hfirst,hall⟩
    · have hpanic := add_of_above score (hdim _ mem_cons_self) hw.sound hw.entry_ne_nil hlive (not_le.mp hfirst)
      rw [mergeSnapshot_cons_of_error hpanic]
      rintro ⟨⟩

/-- However many calls follow, the empty id stays lost. -/
lemma mergeSnapshot_lost (mutex : Mutex) (hlost : t.index.Lost)
    (hbalanced : t.events.count .Lock = t.events.count .Unlock) (hdim : ∀ a ∈ adds, a.2.1.length = t.index.dim)
    (hfresh : Fresh adds t.index) {t' : Goroutine F} (hrun : mergeSnapshot score mutex adds t = (.ok (),t')) :
    t'.index.Lost := by
  cases mutex with
  | rwMutex =>
    cases adds with
    | nil =>
      obtain rfl := (Prod.mk.inj hrun).2
      exact hlost
    | cons a adds =>
      obtain ⟨id,vec,l⟩ := a
      rw [mergeSnapshot,add_of_entry hbalanced l (hdim _ mem_cons_self) hlost.entry_ne_nil] at hrun
      cases hrun
  | reentrant =>
    clear hbalanced
    induction adds generalizing t with
    | nil =>
      obtain rfl := (Prod.mk.inj hrun).2
      exact hlost
    | cons a adds ih =>
      obtain ⟨id,vec,l⟩ := a
      have hlive := hfresh.2 _ mem_cons_self
      have hid : id ≠ [] := fun heq => hlive (heq ▸ hlost.live)
      by_cases hl : l≤t.index.maxLayer
      · have hclosed : t.index.Closed fun x => t.index.Live x ∧ x ≠ [] := fun lc x _ nb hnb =>
          ⟨(hlost.sound.links_stand lc x nb hnb).live,fun heq => hlost.not_linked lc x (heq ▸ hnb)⟩
        obtain ⟨t₁,start,out,seen,hadd,hsound,hatt⟩ := add_attached score (hdim _ mem_cons_self)
          (by rw [hlost.m_eq]; omega) hlost.sound hlost.entry_ne_nil hlive hl hclosed
          ⟨(hlost.sound.entry_stands hlost.entry_ne_nil).1.live,hlost.entry_ne_nil⟩ fun h => hlive h.1
        rw [mergeSnapshot,hadd] at hrun
        refine ih ⟨hsound,hatt.grows.entry_eq ▸ hlost.entry_ne_nil,hatt.grows.m_eq.trans hlost.m_eq,
          (hatt.live_iff []).mpr (.inr hlost.live),fun lc x hmem => ?_⟩
          (fun a ha => (hdim a (mem_cons_of_mem _ ha)).trans hatt.grows.dim_eq.symm) (hfresh.tail hatt.live_iff) hrun
        rcases hatt.new_links lc x [] hmem with hold | hnew | hP
        · rw [linksAt_insertNode_of_not_live vec hlive] at hold
          exact hlost.not_linked lc x hold
        · exact hid hnew.symm
        · exact hP.2 rfl
      · have hpanic := add_of_above score (hdim _ mem_cons_self) hlost.sound hlost.entry_ne_nil hlive (not_le.mp hl)
        have hresult : (mergeSnapshot score .reentrant ((id,vec,l)::adds) t).1 = .error (.panic .indexOutOfRange) :=
          mergeSnapshot_cons_of_error hpanic
        rw [hrun] at hresult
        cases hresult

lemma mergeSnapshot_filter (mutex : Mutex) (adds : List (Bytes × List F × Fin 9)) (t : Goroutine F) :
    mergeSnapshot score mutex (adds.filter fun a => a.2.1.length = t.index.dim) t =
      mergeSnapshot score mutex adds t := by
  induction adds generalizing t with
  | nil => rfl
  | cons a adds ih =>
    obtain ⟨id,vec,l⟩ := a
    rw [filter_cons]
    split
    · rw [mergeSnapshot,mergeSnapshot]
      have hdim := (add_constants mutex score id vec l t).1
      rcases hadd : add score mutex id vec l t with ⟨_ | _,t'⟩
      · rfl
      · have hdim' : t'.index.dim = t.index.dim := by rwa [hadd] at hdim
        rw [← hdim']
        exact ih t'
    · rename_i hdim
      have hskip : add score mutex id vec l t = (.ok (),t) := by
        rw [add,if_pos (by simpa using hdim)]
      rw [mergeSnapshot,hskip]
      exact ih t

end Sequences

/-- The nodes `ids` are reached from the entry on the bottom layer, and a search that may keep as many as there are
returns as many as it is asked for. `k*4` is the product of `int`. -/
def Finds (score : List F → List F → S) (mutex : Mutex) (ids : List Bytes) (h : HNSWIndex F) : Prop :=
  (∀ id ∈ ids, Reaches (h.linksAt 0) h.entry id) ∧
    ∀ (query : List F) (k : ℕ), k<2^63 → (ids.length : ℤ) ≤ goInt (k*4) →
      ∃ hits, (topK score mutex query k ⟨h,[]⟩).1 = .ok hits ∧ hits.length = min k ids.length

/-- All calls return, and what was added can be found. -/
def FindsAdded (score : List F → List F → S) (mutex : Mutex) (dim : ℕ) (adds : List (Bytes × List F × Fin 9)) :
    Prop :=
  ∃ t, mergeSnapshot score mutex adds ⟨new dim,[]⟩ = (.ok (),t) ∧
    Finds score mutex ((adds.filter fun a => a.2.1.length = dim).map fst) t.index

/-- The sequences of which everything is found: the first node has an id, and if there are others, `mu` lets `add`
search, no draw is above the first one, and there are at most seventeen nodes. -/
def Findable (mutex : Mutex) : List (Bytes × List F × Fin 9) → Prop
  | [] => True
  | first::rest => first.1 ≠ [] ∧ (rest = [] ∨ mutex = .reentrant ∧ (∀ a ∈ rest, a.2.2≤first.2.2) ∧ rest.length≤16)

section Main
variable (score : List F → List F → S) (mutex : Mutex) (dim : ℕ)

lemma topK_eq (query : List F) (k : ℤ) (h : HNSWIndex F) :
    (topK score mutex query k ⟨h,[]⟩).1 = lift (h.topKLocked score query (if k ≤ 0 then 5 else k)) := by
  rw [topK,under_of_not_held mutex rfl,deferred_lift]
  rfl

lemma finds_nil : Finds score mutex [] (new dim) := by
  refine ⟨by simp,fun query k _ _ => ⟨[],?_,by simp⟩⟩
  rw [topK_eq,topKLocked,if_pos (.inl rfl)]
  rfl

lemma Woven.finds_iff {ids : List Bytes} (hw : Woven 16 ids h) : Finds score mutex ids h ↔ ids.length≤17 := by
  constructor
  · rintro ⟨hreach,_⟩
    by_contra hlong
    have hlt : 17 < ids.length := not_le.mp hlong
    have hcore := (hw.reaches_iff hw.entry_mem_core _).mp (hreach ids[17] (getElem_mem hlt))
    obtain ⟨i,hi,heq⟩ := getElem_of_mem hcore
    rw [getElem_take] at heq
    have hindex := (List.Nodup.getElem_inj_iff hw.nodup).mp heq
    rw [length_take] at hi
    omega
  · intro hlength
    refine ⟨fun id hid => (hw.reaches_iff hw.entry_mem_core id).mpr ?_,fun query k _ hk => ?_⟩
    · rwa [take_of_length_le hlength]
    · have hpos : 0<(k : ℤ) := by
        rcases Nat.eq_zero_or_pos k with rfl | hpos
        · have hids := length_pos_of_mem (mem_of_mem_head? hw.entry_eq)
          simp only [Nat.cast_zero,zero_mul,goInt,Int.zero_bmod] at hk
          omega
        · exact_mod_cast hpos
      obtain ⟨hits,hhits,hlen⟩ := hw.topKLocked_eq_ok score hlength query hk
      refine ⟨hits,?_,hlen⟩
      rw [topK_eq,if_neg (not_le.mpr hpos),hhits]
      rfl

def firstIndex (first : Bytes × List F × Fin 9) (dim : ℕ) : HNSWIndex F :=
  { (new dim).insertNode first.1 first.2.1 first.2.2 with entry := first.1, maxLayer := first.2.2 }

lemma linksAt_firstIndex (first : Bytes × List F × Fin 9) (lc : ℕ) (x : Bytes) :
    (firstIndex first dim).linksAt lc x = [] := by
  have hlinks := linksAt_insertNode (new dim) first.1 first.2.1 first.2.2 lc x
  split at hlinks
  · exact hlinks
  · exact hlinks.trans rfl

lemma live_firstIndex (first : Bytes × List F × Fin 9) (x : Bytes) :
    (firstIndex first dim).Live x ↔ x = first.1 := by
  have hlive := live_insertNode (new dim) first.1 first.2.1 first.2.2 x
  have hnone : ¬ (new dim : HNSWIndex F).Live x := by
    rintro ⟨node,hget⟩
    cases hget
  exact hlive.trans (or_iff_left hnone)

lemma woven_firstIndex {first : Bytes × List F × Fin 9} (hfirst : first.1 ≠ []) :
    Woven 16 [first.1] (firstIndex first dim) := by
  have hsound : (firstIndex first dim).Sound := (sound_insertNode_iff (sound_new dim) rfl _ _ _).mpr hfirst
  exact Woven.single hsound rfl (live_firstIndex dim first) fun x => linksAt_firstIndex dim first 0 x

lemma lost_secondIndex {first second : Bytes × List F × Fin 9} (hfirst : first.1 = []) (hsecond : second.1 ≠ []) :
    Lost ({ (firstIndex first dim).insertNode second.1 second.2.1 second.2.2 with
      entry := second.1, maxLayer := second.2.2 } : HNSWIndex F) := by
  have hstands (lc : ℕ) := stands_insertNode_self (firstIndex first dim) second.1 second.2.1 second.2.2 lc
  have hlinks (lc : ℕ) (x : Bytes) : ((firstIndex first dim).insertNode second.1 second.2.1 second.2.2).linksAt lc
      x = [] := by
    rw [linksAt_insertNode,linksAt_firstIndex,ite_self]
  have hnone (lc : ℕ) (x y : Bytes) :
      y ∉ ((firstIndex first dim).insertNode second.1 second.2.1 second.2.2).linksAt lc x := by
    rw [hlinks]
    exact not_mem_nil
  refine ⟨sound_of_stands hsecond ⟨(hstands _).mpr le_rfl,fun h => absurd ((hstands _).mp h) (by simp)⟩
    fun lc x nb hnb => ?_,hsecond,rfl,?_,?_⟩
  · exact absurd hnb (hnone lc x nb)
  · exact (live_insertNode _ _ _ _ []).mpr (.inr ((live_firstIndex dim first []).mpr hfirst.symm))
  · exact fun lc x => hnone lc x []

lemma mergeSnapshot_first (first : Bytes × List F × Fin 9) (hfirst : first.2.1.length = dim)
    (rest : List (Bytes × List F × Fin 9)) :
    mergeSnapshot score mutex (first::rest) ⟨new dim,[]⟩ = mergeSnapshot score mutex rest
      ⟨firstIndex first dim,[.Lock,.Unlock]⟩ := by
  obtain ⟨id,vec,l⟩ := first
  rw [mergeSnapshot,add_of_entry_nil (t := ⟨new dim,[]⟩) mutex rfl l hfirst rfl]
  rfl

variable {dim} {first : Bytes × List F × Fin 9} {rest : List (Bytes × List F × Fin 9)}

lemma not_finds_of_first_nil (hfirst : first.1 = []) (hdim : ∀ a ∈ first::rest, a.2.1.length = dim)
    (hnodup : ((first::rest).map fst).Nodup) {t : Goroutine F}
    (hrun : mergeSnapshot score mutex (first::rest) ⟨new dim,[]⟩ = (.ok (),t)) :
    ¬ Finds score mutex ((first::rest).map fst) t.index := by
  rw [mergeSnapshot_first score mutex dim first (hdim first mem_cons_self)] at hrun
  cases rest with
  | nil =>
    -- the index is taken to be empty
    obtain rfl := (Prod.mk.inj hrun).2
    rintro ⟨_,htop⟩
    obtain ⟨hits,hhits,hlength⟩ := htop [] 1 (by norm_num) (show ((1 : ℕ) : ℤ) ≤ goInt ((1 : ℕ)*4) by decide)
    rw [topK_eq,topKLocked,if_pos (.inr hfirst)] at hhits
    obtain rfl := Except.ok.inj hhits
    simp at hlength
  | cons second rest =>
    obtain ⟨id,vec,l⟩ := second
    simp only [map_cons,nodup_cons,mem_cons,not_or] at hnodup
    have hsecond : (id,vec,l).1 ≠ [] := hfirst ▸ Ne.symm hnodup.1.1
    have hlost := lost_secondIndex dim hfirst hsecond
    rw [mergeSnapshot,add_of_entry_nil (t := ⟨firstIndex first dim,[.Lock,.Unlock]⟩) mutex rfl l
      (hdim (id,vec,l) (by simp)) hfirst] at hrun
    have hfresh : Fresh rest ((firstIndex first dim).insertNode id vec l) := by
      refine ⟨hnodup.2.2,fun a ha => ?_⟩
      rw [live_insertNode,live_firstIndex,not_or]
      exact ⟨fun heq => hnodup.2.1 (heq ▸ mem_map_of_mem ha),fun heq => hnodup.1.2 (heq ▸ mem_map_of_mem ha)⟩
    have hafter := mergeSnapshot_lost score mutex hlost rfl (fun a ha => hdim a (by simp [ha])) hfresh hrun
    exact fun hfinds => hafter.not_reaches (hfirst ▸ hfinds.1 first.1 (by simp))

lemma exists_finds_iff_of_first (hfirst : first.1 ≠ []) (hdim : ∀ a ∈ first::rest, a.2.1.length = dim)
    (hnodup : ((first::rest).map fst).Nodup) :
    (∃ t, mergeSnapshot score mutex (first::rest) ⟨new dim,[]⟩ = (.ok (),t) ∧
      Finds score mutex ((first::rest).map fst) t.index) ↔
      rest = [] ∨ mutex = .reentrant ∧ (∀ a ∈ rest, a.2.2≤first.2.2) ∧ rest.length≤16 := by
  rw [mergeSnapshot_first score mutex dim first (hdim first mem_cons_self)]
  have hw := woven_firstIndex dim hfirst
  have hfresh : Fresh rest (firstIndex first dim) := by
    obtain ⟨hnot,hdistinct⟩ := nodup_cons.mp hnodup
    refine ⟨hdistinct,fun a ha => ?_⟩
    rw [live_firstIndex]
    exact fun heq => hnot (heq ▸ mem_map_of_mem ha)
  have hdim' : ∀ a ∈ rest, a.2.1.length = (firstIndex first dim).dim := fun a ha => hdim a (mem_cons_of_mem _ ha)
  by_cases hrest : rest = []
  · subst hrest
    refine iff_of_true ⟨_,rfl,?_⟩ (.inl rfl)
    exact (hw.finds_iff score mutex).mpr (by simp)
  · simp only [hrest,false_or]
    cases mutex with
    | rwMutex =>
      -- the second call never returns
      refine iff_of_false ?_ (by simp)
      rintro ⟨t,hrun,_⟩
      obtain ⟨⟨id,vec,l⟩,more,rfl⟩ := exists_cons_of_ne_nil hrest
      rw [mergeSnapshot,add_of_entry (t := ⟨firstIndex first dim,[.Lock,.Unlock]⟩) rfl l (hdim' _ mem_cons_self)
        hfirst] at hrun
      cases hrun
    | reentrant =>
      by_cases hl : ∀ a ∈ rest, a.2.2≤first.2.2
      · obtain ⟨t',hrun,hw'⟩ := mergeSnapshot_woven (t := ⟨firstIndex first dim,[.Lock,.Unlock]⟩) score
          (by omega) hw hdim' hfresh hl
        have hfinds := hw'.finds_iff score .reentrant
        rw [singleton_append,length_cons,length_map] at hfinds
        constructor
        · rintro ⟨t,hsame,hfound⟩
          obtain rfl := (Prod.mk.inj (hrun.symm.trans hsame)).2
          have hlength := hfinds.mp hfound
          exact ⟨rfl,hl,by omega⟩
        · rintro ⟨_,_,hlength⟩
          exact ⟨t',hrun,hfinds.mpr (by omega)⟩
      · refine iff_of_false ?_ fun h => hl h.2.1
        rintro ⟨t,hrun,_⟩
        have hpanic := mergeSnapshot_of_above (t := ⟨firstIndex first dim,[.Lock,.Unlock]⟩) score (by omega) hw hdim'
          hfresh hl
        rw [hrun] at hpanic
        exact hpanic rfl

variable (dim)

/-- After a sequence of calls with distinct ids everything added can be found exactly when the sequence is as
described. -/
theorem findsAdded_iff_findable (adds : List (Bytes × List F × Fin 9)) (hnodup : (adds.map fst).Nodup) :
    FindsAdded score mutex dim adds ↔ Findable mutex (adds.filter fun a => a.2.1.length = dim) := by
  have hdim : ∀ a ∈ adds.filter (fun a => decide (a.2.1.length = dim)), a.2.1.length = dim :=
    fun a ha => by simpa using (mem_filter.mp ha).2
  have hdistinct : ((adds.filter fun a => decide (a.2.1.length = dim)).map fst).Nodup :=
    hnodup.sublist (filter_sublist.map fst)
  have hadds : mergeSnapshot score mutex (adds.filter fun a => decide (a.2.1.length = dim)) ⟨new dim,[]⟩ =
      mergeSnapshot score mutex adds ⟨new dim,[]⟩ := mergeSnapshot_filter score mutex adds ⟨new dim,[]⟩
  rw [FindsAdded,← hadds]
  cases hadded : adds.filter (fun a => decide (a.2.1.length = dim)) with
  | nil => exact iff_of_true ⟨_,rfl,finds_nil score mutex dim⟩ trivial
  | cons first rest =>
    rw [hadded] at hdim hdistinct
    by_cases hfirst : first.1 = []
    · refine iff_of_false ?_ fun hfindable => hfindable.1 hfirst
      rintro ⟨t,hrun,hfinds⟩
      exact not_finds_of_first_nil score mutex hfirst hdim hdistinct hrun hfinds
    · rw [Findable,exists_finds_iff_of_first score mutex hfirst hdim hdistinct]
      exact (and_iff_right hfirst).symm

end Main

/-- Three vectors are found, where the mutex lets their calls through. -/
theorem findsAdded_three :
    (([([97],[0],1),([98],[0],0),([99],[0],1)] : List (Bytes × List ℕ × Fin 9)).map fst).Nodup ∧
      FindsAdded (fun _ _ : List ℕ => (0 : ℕ)) .reentrant 1 [([97],[0],1),([98],[0],0),([99],[0],1)] :=
  ⟨by decide,(findsAdded_iff_findable _ _ _ _ (by decide)).mpr ⟨by decide,.inr ⟨rfl,by decide,by decide⟩⟩⟩

/-- The second call blocks; where it would not, a higher draw makes it panic, and the eighteenth node is not
linked. -/
theorem not_findsAdded :
    (mergeSnapshot (fun _ _ : List ℕ => (0 : ℕ)) .rwMutex [([97],[0],0),([98],[0],0)] ⟨new 1,[]⟩).1 =
      .error .blocked ∧
    (mergeSnapshot (fun _ _ : List ℕ => (0 : ℕ)) .reentrant [([97],[0],0),([98],[0],1)] ⟨new 1,[]⟩).1 =
      .error (.panic .indexOutOfRange) ∧
    ¬ FindsAdded (fun _ _ : List ℕ => (0 : ℕ)) .rwMutex 1 [([97],[0],0),([98],[0],0)] ∧
    ¬ FindsAdded (fun _ _ : List ℕ => (0 : ℕ)) .reentrant 1 [([97],[0],0),([98],[0],1)] ∧
    ¬ FindsAdded (fun _ _ : List ℕ => (0 : ℕ)) .reentrant 1
      ((range 18).map fun i => ([UInt8.ofNat (i+97)],[0],0)) := by
  have hblocked : (mergeSnapshot (fun _ _ : List ℕ => (0 : ℕ)) .rwMutex [([97],[0],0),([98],[0],0)] ⟨new 1,[]⟩).1 =
    .error .blocked := rfl
  have hpanic : (mergeSnapshot (fun _ _ : List ℕ => (0 : ℕ)) .reentrant [([97],[0],0),([98],[0],1)] ⟨new 1,[]⟩).1 =
      .error (.panic .indexOutOfRange) := rfl
  refine ⟨hblocked,hpanic,?_,?_,?_⟩
  · rintro ⟨t,hrun,_⟩
    rw [hrun] at hblocked
    cases hblocked
  · rintro ⟨t,hrun,_⟩
    rw [hrun] at hpanic
    cases hpanic
  · intro hfinds
    have hfindable := (@exists_finds_iff_of_first ℕ ℕ _ (fun _ _ => 0) .reentrant 1 ([97],[0],0)
      ((range' 1 17).map fun i => ([UInt8.ofNat (i+97)],[0],0)) (by decide) (by decide) (by decide)).mp hfinds
    revert hfindable
    decide

end TitanKV.Services.Rag.HNSWIndex
