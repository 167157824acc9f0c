import TitanKV.Services.Rag.HnswSound

/-! What a call of `add` for a new id does to the bottom layer: the node is linked to the nodes a search
from some older node finds, and gets a link back from those of them that have fewer than `m`. -/
namespace TitanKV.Services.Rag.HNSWIndex
open Minikv (Bytes)
open Goroutine List
open Exploration (Reaches)

variable {F S : Type*} [LinearOrder S] {h h' : HNSWIndex F} {t : Goroutine F}

lemma linkNeighbours_linksAt_of_ne (id : Bytes) {lc lc' : ℕ} (hne : lc' ≠ lc) (nbs : List Bytes) (h : HNSWIndex F)
    (x : Bytes) :
    (linkNeighbours id lc nbs h).2.linksAt lc' x = h.linksAt lc' x := by
  have hkeeps : ∀ (h' : HNSWIndex F) (id nb : Bytes), h'.linksAt lc' x = h.linksAt lc' x →
      (h'.appendLink id lc nb).linksAt lc' x = h.linksAt lc' x :=
    fun h' id nb hsame => (linksAt_appendLink_of_ne h' id lc nb (.inr hne)).trans hsame
  exact linkNeighbours_of_appendLink hkeeps id nbs rfl

variable {id : Bytes} {lc : ℕ}

lemma linkNeighbours_linksAt {nbs : List Bytes} (hid : h.Stands lc id) (hnbs : ∀ nb ∈ nbs, h.Stands lc nb)
    (hnot : id ∉ nbs) (hnodup : nbs.Nodup) :
    (linkNeighbours id lc nbs h).2.linksAt lc id = h.linksAt lc id ++ nbs ∧
      ∀ x ≠ id, (linkNeighbours id lc nbs h).2.linksAt lc x =
        if x ∈ nbs ∧ (h.linksAt lc x).length<h.m then h.linksAt lc x ++ [id] else h.linksAt lc x := by
  induction nbs generalizing h with
  | nil => simp [linkNeighbours]
  | cons nb nbs ih =>
    obtain ⟨hne,hnot⟩ := not_or.mp (mem_cons.not.mp hnot)
    obtain ⟨hnb,hnodup⟩ := nodup_cons.mp hnodup
    have hgrows := Grows.appendLink h id lc nb
    have hstands : (h.appendLink id lc nb).Stands lc nb := (hgrows.stands_iff lc nb).mpr (hnbs nb mem_cons_self)
    have hown : (h.appendLink id lc nb).linksAt lc id = h.linksAt lc id ++ [nb] := linksAt_appendLink_self nb hid
    have hother (x : Bytes) (hx : x ≠ id) : (h.appendLink id lc nb).linksAt lc x = h.linksAt lc x :=
      linksAt_appendLink_of_ne h id lc nb (.inl hx)
    have hrest {h' : HNSWIndex F} (hgrows : Grows h h') : ∀ x ∈ nbs, h'.Stands lc x :=
      fun x hx => (hgrows.stands_iff lc x).mpr (hnbs x (mem_cons_of_mem nb hx))
    rw [linkNeighbours,if_neg (Ne.symm hne)]
    simp only [neighboursAt_eq_ok hstands,hother nb (Ne.symm hne)]
    split
    · -- the neighbour has room for a link back
      rename_i hroom
      have hgrows' := hgrows.trans (Grows.appendLink _ nb lc id)
      obtain ⟨hown',hother'⟩ := ih ((hgrows'.stands_iff lc id).mpr hid) (hrest hgrows') hnot hnodup
      refine ⟨?_,fun x hx => ?_⟩
      · rw [hown',linksAt_appendLink_of_ne _ nb lc id (.inl hne),hown,append_assoc,singleton_append]
      · rw [hother' x hx]
        by_cases hxnb : x = nb
        · subst hxnb
          rw [linksAt_appendLink_self id hstands,hother x hx,if_neg fun h => hnb h.1,if_pos ⟨mem_cons_self,hroom⟩]
        · rw [linksAt_appendLink_of_ne _ nb lc id (.inl hxnb),hother x hx]
          simp [hxnb,hgrows'.m_eq]
    · rename_i hfull
      obtain ⟨hown',hother'⟩ := ih ((hgrows.stands_iff lc id).mpr hid) (hrest hgrows) hnot hnodup
      refine ⟨?_,fun x hx => ?_⟩
      · rw [hown',hown,append_assoc,singleton_append]
      · rw [hother' x hx,hother x hx]
        by_cases hxnb : x = nb
        · subst hxnb
          rw [if_neg fun h => hnb h.1,if_neg fun h => hfull h.2]
        · simp [hxnb,hgrows.m_eq]

/-- The node `id` has been connected: on the bottom layer to `out`, which is what a search from `curr` keeps of the
nodes `seen` it can reach. `P` holds where the search is. -/
structure Attached (P : Bytes → Prop) (id : Bytes) (h h' : HNSWIndex F) (curr : Bytes) (out seen : List Bytes) :
    Prop where
  grows : Grows h h'
  links_stand : h'.LinksStand
  start : P curr
  stands : h.Stands 0 curr
  nodup : seen.Nodup
  mem_seen : ∀ x, x ∈ seen ↔ Reaches (h.linksAt 0) curr x
  kept : List.Subperm out seen
  length_out : out.length = min (h.m*2) seen.length
  own : h'.linksAt 0 id = h.linksAt 0 id ++ out
  others : ∀ x ≠ id, h'.linksAt 0 x = if x ∈ out ∧ (h.linksAt 0 x).length<h.m then h.linksAt 0 x ++ [id]
    else h.linksAt 0 x
  new_links : ∀ lc x, ∀ nb ∈ h'.linksAt lc x, nb ∈ h.linksAt lc x ∨ nb = id ∨ P nb

variable {P : Bytes → Prop}

/-- One layer of `connect` for a node outside a set that no link of the layer leaves. -/
lemma connect_layer (score : List F → List F → S) (q : List F) {curr : Bytes}
    (hm : 1≤t.index.m) (hlinks : t.index.LinksStand) (hid : t.index.Stands lc id) (hstart : t.index.Stands lc curr)
    (hP : ∀ x, P x → ∀ nb ∈ t.index.linksAt lc x, P nb) (hcurr : P curr) (hnot : ¬ P id) :
    ∃ next rest seen t', connect score .reentrant q id (lc+1) curr t = connect score .reentrant q id lc next t' ∧
      t'.index = (linkNeighbours id lc (next::rest) t.index).2 ∧ t'.index.LinksStand ∧ seen.Nodup ∧
      (∀ x, x ∈ seen ↔ Reaches (t.index.linksAt lc) curr x) ∧ (∀ x ∈ seen, P x) ∧ List.Subperm (next::rest) seen ∧
      (next::rest).length = min (t.index.m*2) seen.length ∧
      t'.index.linksAt lc id = t.index.linksAt lc id ++ next::rest ∧
      ∀ x ≠ id, t'.index.linksAt lc x = if x ∈ next::rest ∧ (t.index.linksAt lc x).length<t.index.m
        then t.index.linksAt lc x ++ [id] else t.index.linksAt lc x := by
  obtain ⟨next,rest,seen,t',heq,hindex,hlinks',hnodup,hseen,hsub,hlength⟩ :=
    connect_succ score q hm hlinks hid hstart
  have hinside : ∀ x ∈ seen, P x := by
    intro x hx
    have hreach := (hseen x).mp hx
    clear hx
    induction hreach with
    | refl => exact hcurr
    | tail _ hlink ih => exact hP _ ih _ hlink
  have hstands : ∀ nb ∈ next::rest, t.index.Stands lc nb :=
    fun nb hnb => Reaches.stands hlinks hstart ((hseen nb).mp (hsub.subset hnb))
  have hnotout : id ∉ next::rest := fun hmem => hnot (hinside id (hsub.subset hmem))
  obtain ⟨hown,hothers⟩ := linkNeighbours_linksAt hid hstands hnotout (Exploration.nodup_of_subperm hsub hnodup)
  rw [← hindex] at hown hothers
  exact ⟨next,rest,seen,t',heq,hindex,hlinks',hnodup,hseen,hinside,hsub,hlength,hown,hothers⟩

lemma linkNeighbours_new_links {nbs : List Bytes} (hnbs : ∀ nb ∈ nbs, P nb)
    (hown : h'.linksAt lc id = h.linksAt lc id ++ nbs)
    (hothers : ∀ x ≠ id, h'.linksAt lc x = if x ∈ nbs ∧ (h.linksAt lc x).length<h.m then h.linksAt lc x ++ [id]
      else h.linksAt lc x)
    {x nb : Bytes} (hnb : nb ∈ h'.linksAt lc x) : nb ∈ h.linksAt lc x ∨ nb = id ∨ P nb := by
  by_cases hx : x = id
  · subst hx
    rw [hown,mem_append] at hnb
    exact hnb.imp_right fun hnb => .inr (hnbs nb hnb)
  · rw [hothers x hx] at hnb
    split at hnb
    · rw [mem_append,mem_singleton] at hnb
      exact hnb.imp_right .inl
    · exact .inl hnb

theorem connect_attached (score : List F → List F → S) (q : List F) {n : ℕ} {curr : Bytes} (hm : 1≤t.index.m)
    (hlinks : t.index.LinksStand) (hid : ∀ lc < n+1, t.index.Stands lc id) (hstart : t.index.Stands n curr)
    (hP : ∀ lc < n+1, ∀ x, P x → ∀ nb ∈ t.index.linksAt lc x, P nb) (hcurr : P curr) (hnot : ¬ P id) :
    ∃ t' start out seen, connect score .reentrant q id (n+1) curr t = (.ok (),t') ∧
      Attached P id t.index t'.index start out seen := by
  induction n generalizing curr t with
  | zero =>
    obtain ⟨next,rest,seen,t',heq,hindex,hlinks',hnodup,hseen,hinside,hsub,hlength,hown,hothers⟩ :=
      connect_layer score q hm hlinks (hid 0 Nat.one_pos) hstart (hP 0 Nat.one_pos) hcurr hnot
    have hnbs : ∀ nb ∈ next::rest, P nb := fun nb hnb => hinside nb (hsub.subset hnb)
    refine ⟨t',curr,next::rest,seen,heq,?_,hlinks',hcurr,hstart,hnodup,hseen,hsub,hlength,hown,hothers,
      fun lc x nb hnb => ?_⟩
    · rw [hindex]
      exact linkNeighbours_grows id 0 _ _
    · by_cases hlc : lc = 0
      · subst hlc
        exact linkNeighbours_new_links hnbs hown hothers hnb
      · rw [hindex,linkNeighbours_linksAt_of_ne id hlc] at hnb
        exact .inl hnb
  | succ n ih =>
    have hlast := Nat.lt_succ_self (n+1)
    obtain ⟨next,rest,seen,t₁,heq,hindex,hlinks',hnodup,hseen,hinside,hsub,hlength,hown,hothers⟩ :=
      connect_layer score q hm hlinks (hid (n+1) hlast) hstart (hP (n+1) hlast) hcurr hnot
    have hnbs : ∀ nb ∈ next::rest, P nb := fun nb hnb => hinside nb (hsub.subset hnb)
    have hgrows : Grows t.index t₁.index := hindex ▸ linkNeighbours_grows id (n+1) _ _
    have hbelow (lc : ℕ) (hlc : lc ≠ n+1) : t₁.index.linksAt lc = t.index.linksAt lc := by
      ext1 x
      rw [hindex,linkNeighbours_linksAt_of_ne id hlc]
    have hnext : t.index.Stands (n+1) next :=
      Reaches.stands hlinks hstart ((hseen next).mp (hsub.subset mem_cons_self))
    obtain ⟨t',start,out,seen',hconnect,hattached⟩ := ih (t := t₁) (hgrows.m_eq ▸ hm) hlinks'
      (fun lc hlc => (hgrows.stands_iff lc id).mpr (hid lc (hlc.trans hlast)))
      (((hgrows.stands_iff (n+1) next).mpr hnext).mono (Nat.le_succ n))
      (fun lc hlc x hx nb hnb => hP lc (hlc.trans hlast) x hx nb (hbelow lc hlc.ne ▸ hnb)) (hnbs next mem_cons_self)
    have hzero := hbelow 0 (Nat.succ_ne_zero n).symm
    refine ⟨t',start,out,seen',heq.trans hconnect,hgrows.trans hattached.grows,hattached.links_stand,hattached.start,
      (hgrows.stands_iff 0 start).mp hattached.stands,hattached.nodup,hzero ▸ hattached.mem_seen,hattached.kept,
      hgrows.m_eq ▸ hattached.length_out,hzero ▸ hattached.own,hgrows.m_eq ▸ hzero ▸ hattached.others,
        fun lc x nb hnb => ?_⟩
    rcases hattached.new_links lc x nb hnb with hold | hnew
    · by_cases hlc : lc = n+1
      · subst hlc
        exact linkNeighbours_new_links hnbs hown hothers hold
      · exact .inl (hbelow lc hlc ▸ hold)
    · exact .inr hnew

section NewId
variable {id : Bytes} (vec : List F) {l : ℕ}

lemma linksAt_of_not_live (hlive : ¬ h.Live id) (lc : ℕ) : h.linksAt lc id = [] := by
  rw [linksAt,Option.eq_none_iff_forall_ne_some.mpr fun node hget => hlive ⟨node,hget⟩]
  rfl

lemma linksAt_insertNode_of_not_live (hlive : ¬ h.Live id) (lc : ℕ) :
    (h.insertNode id vec l).linksAt lc = h.linksAt lc := by
  ext1 x
  rw [linksAt_insertNode]
  split
  · rename_i hx
    rw [hx,linksAt_of_not_live hlive]
  · rfl

lemma live_insertNode (h : HNSWIndex F) (id : Bytes) (vec : List F) (l : ℕ) (x : Bytes) :
    (h.insertNode id vec l).Live x ↔ x = id ∨ h.Live x := by
  rw [Live,get_insertNode,Live]
  by_cases hx : x = id <;> simp [hx]

lemma fitsIn_of_not_live (hsound : h.Sound) (hentry : h.entry ≠ []) (hlive : ¬ h.Live id) :
    h.FitsIn id l ↔ l≤h.maxLayer := by
  have hid : id ≠ h.entry := fun heq => hlive (heq ▸ (hsound.entry_stands hentry).1.live)
  rw [FitsIn,if_neg hid]
  exact and_iff_left fun lc other _ _ hmem => hlive (hsound.links_stand lc other id hmem).live

theorem addLocked_attached (score : List F → List F → S) (hm : 1≤t.index.m) (hsound : t.index.Sound)
    (hentry : t.index.entry ≠ []) (hlive : ¬ t.index.Live id) (hl : l≤t.index.maxLayer) {P : Bytes → Prop}
    (hP : t.index.Closed P) (hstart : P t.index.entry) (hnot : ¬ P id) :
    ∃ t' start out seen, addLocked score .reentrant id vec l t = (.ok (),t') ∧ t'.index.Sound ∧
      Attached P id (t.index.insertNode id vec l) t'.index start out seen := by
  have hfits := (fitsIn_of_not_live hsound hentry hlive).mpr hl
  obtain ⟨curr,t₂,hindex,heq,hlinks,hcurr,hinside⟩ := addLocked_of_fitsIn_eq score hsound hentry vec hfits
  have hlinksAt (lc : ℕ) :
    t₂.index.linksAt lc = t.index.linksAt lc := by rw [hindex,linksAt_insertNode_of_not_live vec hlive]
  have hclosed : t₂.index.Closed P := fun lc x hx nb hnb => hP lc x hx nb (by rwa [hlinksAt] at hnb)
  have hm₂ : 1≤t₂.index.m := by rwa [hindex]
  have hid : ∀ lc < l+1, t₂.index.Stands lc id := by
    intro lc hlc
    rw [hindex,stands_insertNode_self]
    exact Nat.lt_succ_iff.mp hlc
  obtain ⟨t₃,start,out,seen,hconnect,hattached⟩ := connect_attached score vec hm₂ hlinks hid hcurr
    (fun lc _ => hclosed lc) (hinside P hclosed hstart) hnot
  have hend : addLocked score .reentrant id vec l t = (.ok (),t₃) := by
    rw [heq,hconnect,raiseEntry,if_neg]
    rw [hattached.grows.maxLayer_eq,hindex,maxLayer_insertNode]
    exact not_lt.mpr hl
  obtain ⟨t',hadd,hafter⟩ := addLocked_of_fitsIn score hm hsound hentry vec hfits
  obtain rfl : t₃ = t' := (Prod.mk.inj (hend.symm.trans hadd)).2
  exact ⟨t₃,start,out,seen,hend,hafter,hindex ▸ hattached⟩

end NewId
end TitanKV.Services.Rag.HNSWIndex
