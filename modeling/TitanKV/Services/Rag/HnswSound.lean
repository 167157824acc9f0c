import TitanKV.Library.Runs
import TitanKV.Services.Rag.HnswLinks

/-! The structure an index has to have for its searches to be safe, and the calls that keep it. A layer
above all others is never linked to, a deleted node is never unlinked, and the entry does not follow the
node with the most layers, so some calls break the structure; what they are is stated exactly. -/
namespace TitanKV.Services.Rag.HNSWIndex
open Operation Directory
open Minikv (Bytes)
open Goroutine List

variable {F S : Type*} [LinearOrder S] {score : List F → List F → S} {h : HNSWIndex F} {t : Goroutine F}

/-- There is an entry as soon as there is a node, it has all the layers, and every link leads to a node that
has the layer of the link. -/
structure Sound (h : HNSWIndex F) : Prop where
  entry_eq_nil_iff : h.entry = [] ↔ h.nodes = []
  entry_top : h.nodes ≠ [] → ∃ node, h.nodes.get h.entry = some node ∧ node.layers.length = h.maxLayer+1
  links_stand : h.LinksStand

lemma exists_layers_iff {id : Bytes} {n : ℕ} :
    (∃ node, h.nodes.get id = some node ∧ node.layers.length = n+1) ↔ h.Stands n id ∧ ¬ h.Stands (n+1) id := by
  constructor
  · rintro ⟨node,hget,hlength⟩
    refine ⟨⟨node,hget,by omega⟩,?_⟩
    rintro ⟨node',hget',hlt⟩
    obtain rfl := Option.some.inj (hget.symm.trans hget')
    omega
  · rintro ⟨⟨node,hget,hlt⟩,hnot⟩
    exact ⟨node,hget,le_antisymm (not_lt.mp fun h => hnot ⟨node,hget,h⟩) hlt⟩

lemma Sound.entry_stands (hsound : h.Sound) (hentry : h.entry ≠ []) :
    h.Stands h.maxLayer h.entry ∧ ¬ h.Stands (h.maxLayer+1) h.entry :=
  exists_layers_iff.mp (hsound.entry_top (mt hsound.entry_eq_nil_iff.mpr hentry))

lemma sound_of_stands (hentry : h.entry ≠ [])
    (htop : h.Stands h.maxLayer h.entry ∧ ¬ h.Stands (h.maxLayer+1) h.entry) (hlinks : h.LinksStand) : h.Sound := by
  have hne : h.nodes ≠ [] := by
    intro hnil
    obtain ⟨node,hget,_⟩ := htop.1
    rw [hnil] at hget
    cases hget
  exact ⟨iff_of_false hentry hne,fun _ => exists_layers_iff.mpr htop,hlinks⟩

lemma sound_new (dim : ℕ) : (new dim : HNSWIndex F).Sound :=
  ⟨iff_of_true rfl rfl,fun h => absurd rfl h,fun _ _ _ hnb => by cases hnb⟩

section Add

/-- A node with `l+1` layers can be added behind the entry: the entry itself may only gain layers and another
node must not rise above it, and no link leads to an older node of that name on a layer it loses. -/
def FitsIn (h : HNSWIndex F) (id : Bytes) (l : ℕ) : Prop :=
  (if id = h.entry then h.maxLayer≤l else l≤h.maxLayer) ∧ ∀ lc other, other ≠ id → l<lc → id ∉ h.linksAt lc other

variable {id : Bytes} {l : ℕ}

lemma addLocked_of_error {vec : List F} {p : Panic} (hentry : t.index.entry ≠ [])
    (hdescend : (t.index.insertNode id vec l).descendLocked score vec l (t.index.maxLayer-l) t.index.entry =
      .error p) :
    ∃ t₂, addLocked score .reentrant id vec l t = (.error (.panic p),t₂) ∧
      t₂.index = t.index.insertNode id vec l := by
  obtain ⟨t₂,heq,hindex⟩ := descend_reentrant (t := { t with index := t.index.insertNode id vec l }) score vec l
    (t.index.maxLayer-l) t.index.entry
  rw [hdescend] at heq
  refine ⟨t₂,?_,hindex⟩
  simp only [addLocked,entry_insertNode,if_neg hentry,maxLayer_insertNode,heq,lift]

lemma addLocked_of_ok {vec : List F} {curr : Bytes} (hentry : t.index.entry ≠ [])
    (hdescend : (t.index.insertNode id vec l).descendLocked score vec l (t.index.maxLayer-l) t.index.entry =
      .ok curr) :
    ∃ t₂ : Goroutine F, t₂.index = t.index.insertNode id vec l ∧
      addLocked score .reentrant id vec l t = raiseEntry id l (connect score .reentrant vec id (l+1) curr t₂) := by
  obtain ⟨t₂,heq,hindex⟩ := descend_reentrant (t := { t with index := t.index.insertNode id vec l }) score vec l
    (t.index.maxLayer-l) t.index.entry
  rw [hdescend] at heq
  refine ⟨t₂,hindex,?_⟩
  simp only [addLocked,entry_insertNode,if_neg hentry,maxLayer_insertNode,heq,lift]

variable (score)

/-- However `add` ends, the graph has grown from that with the new node, and the goroutine is not blocked. -/
lemma addLocked_grows (id : Bytes) (vec : List F) (l : ℕ) (hentry : t.index.entry ≠ []) :
    (∃ h₂ e top, Grows (t.index.insertNode id vec l) h₂ ∧
      (addLocked score .reentrant id vec l t).2.index = { h₂ with entry := e, maxLayer := top }) ∧
    (addLocked score .reentrant id vec l t).1 ≠ .error .blocked := by
  cases hdescend : (t.index.insertNode id vec l).descendLocked score vec l (t.index.maxLayer-l) t.index.entry with
  | error p =>
    obtain ⟨t₂,heq,hindex⟩ := addLocked_of_error hentry hdescend
    rw [heq,hindex]
    exact ⟨⟨_,_,_,Grows.refl _,rfl⟩,by simp⟩
  | ok curr =>
    obtain ⟨t₂,hindex,heq⟩ := addLocked_of_ok hentry hdescend
    obtain ⟨hgrows,hresult⟩ := connect_grows (t := t₂) score vec id (l+1) curr
    rw [heq]
    rw [hindex] at hgrows
    rcases hconnect : connect score .reentrant vec id (l+1) curr t₂ with ⟨_ | _,t₃⟩
    · rw [hconnect] at hgrows hresult
      exact ⟨⟨_,_,_,hgrows,rfl⟩,hresult⟩
    · rw [hconnect] at hgrows
      rw [raiseEntry]
      split <;> exact ⟨⟨_,_,_,hgrows,rfl⟩,by simp⟩

lemma entry_stands_insertNode (h : HNSWIndex F) (id : Bytes) (vec : List F) (l lc : ℕ) :
    (h.insertNode id vec l).Stands lc h.entry ↔ if id = h.entry then lc≤l else h.Stands lc h.entry := by
  split
  · rename_i hid
    rw [← hid,stands_insertNode_self]
  · rename_i hid
    exact stands_insertNode_of_ne _ id vec l lc (Ne.symm hid)

/-- The search for neighbours of a node that fits in starts at a node with all of its layers. -/
lemma addLocked_of_fitsIn_eq (hsound : t.index.Sound) (hentry : t.index.entry ≠ []) (vec : List F)
    (hfits : t.index.FitsIn id l) :
    ∃ curr t₂, t₂.index = t.index.insertNode id vec l ∧
      addLocked score .reentrant id vec l t = raiseEntry id l (connect score .reentrant vec id (l+1) curr t₂) ∧
      t₂.index.LinksStand ∧ t₂.index.Stands l curr ∧ ∀ P : Bytes → Prop, t₂.index.Closed P → P t.index.entry →
        P curr := by
  have hlinks : (t.index.insertNode id vec l).LinksStand :=
    (linksStand_insertNode _ id vec l hsound.links_stand).mpr hfits.2
  have hrange := hfits.1
  have hstart : (t.index.insertNode id vec l).Stands (l+(t.index.maxLayer-l)) t.index.entry := by
    rw [entry_stands_insertNode]
    split at hrange
    · rename_i hid
      rw [if_pos hid]
      omega
    · rename_i hid
      rw [if_neg hid,Nat.add_sub_cancel' hrange]
      exact (hsound.entry_stands hentry).1
  obtain ⟨curr,hdescend,hcurr,hinside⟩ := descendLocked_eq_ok score vec hlinks hstart
  obtain ⟨t₂,hindex,heq⟩ := addLocked_of_ok hentry hdescend
  refine ⟨curr,t₂,hindex,heq,?_⟩
  rw [hindex]
  exact ⟨hlinks,hcurr,hinside⟩

lemma addLocked_of_fitsIn (hm : 1≤t.index.m) (hsound : t.index.Sound) (hentry : t.index.entry ≠ []) (vec : List F)
    (hfits : t.index.FitsIn id l) :
    ∃ t', addLocked score .reentrant id vec l t = (.ok (),t') ∧ t'.index.Sound := by
  obtain ⟨curr,t₂,hindex,heq,hlinks,hcurr,_⟩ := addLocked_of_fitsIn_eq score hsound hentry vec hfits
  obtain ⟨htop,hnot⟩ := hsound.entry_stands hentry
  have hrange := hfits.1
  have hself (lc : ℕ) : t₂.index.Stands lc id ↔ lc≤l := by rw [hindex,stands_insertNode_self]
  have hm₂ : 1≤t₂.index.m := by rwa [hindex]
  obtain ⟨t₃,hconnect,hlinks₃⟩ := connect_eq_ok score vec hm₂ hlinks
    (fun lc hlc => (hself lc).mpr (Nat.lt_succ_iff.mp hlc)) fun lc hlc => hcurr.mono (Nat.lt_succ_iff.mp hlc)
  have hgrows : Grows t₂.index t₃.index := by
    have hgrows := (connect_grows (t := t₂) score vec id (l+1) curr).1
    rwa [hconnect] at hgrows
  have hmax : t₃.index.maxLayer = t.index.maxLayer := hgrows.maxLayer_eq.trans (by rw [hindex,maxLayer_insertNode])
  have hsame : t₃.index.entry = t.index.entry := hgrows.entry_eq.trans (by rw [hindex,entry_insertNode])
  rw [heq,hconnect,raiseEntry,hmax]
  split
  · -- only the entry itself can rise
    split at hrange
    · rename_i hid
      refine ⟨_,rfl,sound_of_stands (hid ▸ hentry) ⟨?_,fun h => ?_⟩ hlinks₃⟩
      · exact (hgrows.stands_iff l id).mpr ((hself l).mpr le_rfl)
      · exact absurd ((hself (l+1)).mp ((hgrows.stands_iff _ id).mp h)) (by omega)
    · omega
  · refine ⟨_,rfl,sound_of_stands (hsame ▸ hentry) ?_ hlinks₃⟩
    rw [hsame,hmax,hgrows.stands_iff,hgrows.stands_iff,hindex,entry_stands_insertNode,entry_stands_insertNode]
    split at hrange
    · rename_i hid
      rw [if_pos hid,if_pos hid]
      omega
    · rename_i hid
      rw [if_neg hid,if_neg hid]
      exact ⟨htop,hnot⟩

/-- A node above all others looks for neighbours on a layer the entry does not have. -/
lemma addLocked_of_above (hsound : t.index.Sound) (hentry : t.index.entry ≠ []) (vec : List F)
    (hid : id ≠ t.index.entry) (hl : t.index.maxLayer<l) :
    (addLocked score .reentrant id vec l t).1 = .error (.panic .indexOutOfRange) := by
  obtain ⟨htop,hnot⟩ := hsound.entry_stands hentry
  have hdescend : (t.index.insertNode id vec l).descendLocked score vec l (t.index.maxLayer-l) t.index.entry =
      .ok t.index.entry := by
    rw [Nat.sub_eq_zero_of_le hl.le,descendLocked]
  obtain ⟨t₂,hindex,heq⟩ := addLocked_of_ok hentry hdescend
  have hlive : (t.index.insertNode id vec l).Live t.index.entry :=
    ((stands_insertNode_of_ne _ id vec l _ (Ne.symm hid)).mpr htop).live
  have hnone : ¬ (t.index.insertNode id vec l).Stands l t.index.entry := by
    rw [stands_insertNode_of_ne _ id vec l l (Ne.symm hid)]
    exact fun h => hnot (h.mono hl)
  obtain ⟨t₃,hsearch,_⟩ := searchLayer_reentrant (t := t₂) score vec t.index.entry (t₂.index.m*2) l
  rw [hindex,searchLayerLocked_of_not_stands score vec hlive hnone] at hsearch
  rw [heq,connect,hindex,hsearch]
  rfl

lemma addLocked_of_not_fitsIn (hsound : t.index.Sound) (hentry : t.index.entry ≠ []) (vec : List F)
    (hfits : ¬ t.index.FitsIn id l) :
    (addLocked score .reentrant id vec l t).1 = .error (.panic .indexOutOfRange) ∨
      ¬ (addLocked score .reentrant id vec l t).2.index.Sound := by
  rw [FitsIn,not_and_or] at hfits
  rcases hfits with hrange | hupper
  · left
    split at hrange
    · -- the entry comes back with fewer layers and is asked for the one it lost
      rename_i hid
      subst hid
      obtain ⟨n,hn⟩ : ∃ n, t.index.maxLayer-l = n+1 := ⟨t.index.maxLayer-l-1,by omega⟩
      have hnone : ¬ (t.index.insertNode t.index.entry vec l).Stands (l+n+1) t.index.entry := by
        rw [stands_insertNode_self]
        omega
      have hlive : (t.index.insertNode t.index.entry vec l).Live t.index.entry :=
        ((stands_insertNode_self _ _ vec l 0).mpr (Nat.zero_le l)).live
      have hdescend : (t.index.insertNode t.index.entry vec l).descendLocked score vec l (t.index.maxLayer-l)
        t.index.entry =
          .error .indexOutOfRange := by
        rw [hn,descendLocked,greedyClosestLocked_of_not_stands score vec hlive hnone]
      obtain ⟨t₂,heq,_⟩ := addLocked_of_error hentry hdescend
      rw [heq]
    · rename_i hid
      exact addLocked_of_above score hsound hentry vec hid (not_le.mp hrange)
  · -- a link to the new node survives on a layer that it does not have
    right
    push Not at hupper
    obtain ⟨lc,other,hother,hlc,hmem⟩ := hupper
    intro hafter
    obtain ⟨⟨h₂,e,top,hgrows,hindex⟩,_⟩ := addLocked_grows score id vec l hentry
    rw [hindex] at hafter
    have hlink : id ∈ h₂.linksAt lc other := by
      apply hgrows.links_mem
      rwa [linksAt_insertNode,if_neg hother]
    have hstands := (hgrows.stands_iff lc id).mp (hafter.links_stand lc other id hlink)
    rw [stands_insertNode_self] at hstands
    omega

end Add

section Remove
variable {h' : HNSWIndex F} {p : Bytes → Bool}

section
variable (hnodes : h'.nodes = h.nodes.filter fun f => p f.1)
include hnodes

lemma linksAt_of_filter (lc : ℕ) (x : Bytes) :
    h'.linksAt lc x = if p x then h.linksAt lc x else [] := by
  rw [linksAt,hnodes,get_filter,linksAt]
  split <;> rfl

lemma stands_of_filter (lc : ℕ) (x : Bytes) :
    h'.Stands lc x ↔ p x ∧ h.Stands lc x := by
  rw [Stands,hnodes,get_filter,Stands]
  split <;> simp [*]

lemma linksStand_of_filter (hlinks : h.LinksStand) :
    h'.LinksStand ↔ ∀ lc x, p x → ∀ nb ∈ h.linksAt lc x, p nb := by
  constructor
  · intro hafter lc x hx nb hnb
    have hstands := hafter lc x nb (by rwa [linksAt_of_filter hnodes,if_pos hx])
    exact ((stands_of_filter hnodes lc nb).mp hstands).1
  · intro hfree lc x nb hnb
    rw [linksAt_of_filter hnodes] at hnb
    split at hnb
    · rename_i hx
      exact (stands_of_filter hnodes lc nb).mpr ⟨hfree lc x hx nb hnb,hlinks lc x nb hnb⟩
    · cases hnb

lemma sound_of_filter_iff (hlinks : h.LinksStand)
    (hentry : h'.entry ≠ []) (hmax : h'.maxLayer = h.maxLayer) :
    h'.Sound ↔ (p h'.entry ∧ ∃ node, h.nodes.get h'.entry = some node ∧ node.layers.length = h.maxLayer+1) ∧
      ∀ lc x, p x → ∀ nb ∈ h.linksAt lc x, p nb := by
  rw [exists_layers_iff,← linksStand_of_filter hnodes hlinks]
  constructor
  · intro hsound
    have htop := hsound.entry_stands hentry
    rw [hmax,stands_of_filter hnodes,stands_of_filter hnodes] at htop
    exact ⟨⟨htop.1.1,htop.1.2,fun h => htop.2 ⟨htop.1.1,h⟩⟩,hsound.links_stand⟩
  · rintro ⟨⟨hp,htop,hnot⟩,hafter⟩
    refine sound_of_stands hentry ?_ hafter
    rw [hmax,stands_of_filter hnodes,stands_of_filter hnodes]
    exact ⟨⟨hp,htop⟩,fun h => hnot h.2⟩

end

end Remove

/-- The calls that keep the structure. A vector of the right length must have an id if it is the first one, and fit
in otherwise (a real mutex never gets that far); a node may be deleted if nothing links to it, the entry only if the
key that is picked among the others has as many layers; a prefix may be cleared if it spares the entry and cuts no
link. -/
def Careful (mutex : Mutex) (h : HNSWIndex F) : Operation F → Prop
  | .add id vec l => vec.length = h.dim → if h.entry = [] then id ≠ [] else mutex = .rwMutex ∨ h.FitsIn id l
  | .delete id pick => h.Live id → (∀ lc other, other ≠ id → id ∉ h.linksAt lc other) ∧
      (id = h.entry → ∃ key ∈ pickedKey (h.nodes.unlink id) pick, key ≠ [] ∧
        ∃ node, h.nodes.get key = some node ∧ node.layers.length = h.maxLayer+1)
  | .clearByPrefix pre => h.nodes = [] ∨ ¬ pre <+: h.entry ∧
      ∀ lc other, ¬ pre <+: other → ∀ nb ∈ h.linksAt lc other, ¬ pre <+: nb
  | _ => True

/-- The call neither indexes out of range nor dereferences a missing node, and leaves a sound index. -/
def KeepsSound (score : List F → List F → S) (mutex : Mutex) (h : HNSWIndex F) (op : Operation F) : Prop :=
  (perform score mutex ⟨h,[]⟩ op).1 ≠ .error (.panic .indexOutOfRange) ∧
    (perform score mutex ⟨h,[]⟩ op).1 ≠ .error (.panic .nilDereference) ∧
    ∀ h', step score mutex h op = some h' → h'.Sound

/-- `mergeSnapshot` calls `add` for one vector after the other and does not hold `mu` between the calls. -/
def Operation.atoms : Operation F → List (Operation F)
  | .mergeSnapshot vectors => vectors.map fun v => .add v.1 v.2.1 v.2.2
  | op => [op]

section Steps

variable {op : Operation F} {mutex : Mutex}

lemma keepsSound_of_ok {t : Goroutine F} (heq : perform score mutex ⟨h,[]⟩ op = (.ok (),t)) :
    KeepsSound score mutex h op ↔ t.index.Sound := by
  simp [KeepsSound,step,heq]

lemma step_of_not_blocked (hresult : (perform score mutex ⟨h,[]⟩ op).1 ≠ .error .blocked) :
    step score mutex h op = some (perform score mutex ⟨h,[]⟩ op).2.index := by
  rw [step]
  rcases heq : perform score mutex ⟨h,[]⟩ op with ⟨(_ | _) | _,t⟩
  · rfl
  · rw [heq] at hresult
    exact absurd rfl hresult
  · rfl

lemma Sound.entry_ne_nil (hsound : h.Sound) {id : Bytes} (hlive : h.Live id) : h.entry ≠ [] := by
  intro hentry
  obtain ⟨node,hget⟩ := hlive
  rw [hsound.entry_eq_nil_iff.mp hentry] at hget
  cases hget

lemma deleteLocked_of_not_live (hsound : h.Sound) {id : Bytes} (hlive : ¬ h.Live id) (pick : ℕ) :
    h.deleteLocked id pick = h := by
  have hnodes : h.nodes.unlink id = h.nodes := by
    rw [unlink,filter_eq_self]
    intro f hf
    rw [live_iff_mem] at hlive
    exact decide_eq_true fun heq => hlive (heq ▸ mem_map_of_mem hf)
  rw [deleteLocked,hnodes]
  by_cases hentry : h.entry = id
  · have hnil : h.nodes = [] := by
      by_contra hne
      exact hlive (hentry ▸ (exists_layers_iff.mp (hsound.entry_top hne)).1.live)
    have hpick : (pickedKey h.nodes pick).getD h.entry = h.entry := by
      rw [hnil]
      rfl
    simp only [if_pos hentry,hpick]
  · simp only [if_neg hentry]

lemma exists_pickedKey_iff {id : Bytes} (hid : id = h.entry) (pick : ℕ) (P : Bytes → Prop) :
    (∃ key ∈ pickedKey (h.nodes.unlink id) pick, P key) ↔
      (h.deleteLocked id pick).entry ≠ id ∧ P (h.deleteLocked id pick).entry := by
  have hentry : (h.deleteLocked id pick).entry = (pickedKey (h.nodes.unlink id) pick).getD h.entry := if_pos hid.symm
  rw [hentry]
  cases hpick : pickedKey (h.nodes.unlink id) pick with
  | none => simp [hid]
  | some key =>
    obtain ⟨f,hf,rfl⟩ := mem_map.mp (mem_of_getElem? hpick)
    have hne : f.1 ≠ id := of_decide_eq_true (mem_filter.mp hf).2
    simp [hne]

lemma delete_keepsSound_iff (mutex : Mutex) (hsound : h.Sound) (id : Bytes) (pick : ℕ) :
    KeepsSound score mutex h (.delete id pick) ↔ Careful mutex h (.delete id pick) := by
  have heq : perform score mutex ⟨h,[]⟩ (.delete id pick) = (.ok (),⟨h.deleteLocked id pick,[.Lock,.Unlock]⟩) := by
    rw [perform,delete,under_of_not_held mutex rfl,deferred_ok]
    rfl
  rw [keepsSound_of_ok heq,Careful,imp_congr_right fun hid => exists_pickedKey_iff hid pick _]
  by_cases hlive : h.Live id
  · have hne := hsound.entry_ne_nil hlive
    have hnodes : (h.deleteLocked id pick).nodes = h.nodes.filter fun f => decide (f.1 ≠ id) := rfl
    have hcut : (∀ lc x, decide (x ≠ id) → ∀ nb ∈ h.linksAt lc x, decide (nb ≠ id)) ↔
        ∀ lc other, other ≠ id → id ∉ h.linksAt lc other := by
      simp only [decide_eq_true_eq]
      exact forall₃_congr fun lc x _ => ⟨fun hall hmem => hall id hmem rfl,fun hnot nb hnb heq => hnot (heq ▸ hnb)⟩
    simp only [hlive,true_imp_iff]
    by_cases hid : id = h.entry
    · by_cases hnil : (h.deleteLocked id pick).entry = []
      · -- an empty key has become the entry although there are nodes
        refine iff_of_false (fun hafter => ?_) fun hcareful => (hcareful.2 hid).2.1 hnil
        have hnone : h.nodes.unlink id = [] := hafter.entry_eq_nil_iff.mp hnil
        simp [deleteLocked,hid.symm,pickedKey,names,hnone] at hnil
        exact hne (hid ▸ hnil)
      · rw [sound_of_filter_iff (p := fun x => decide (x ≠ id)) hnodes hsound.links_stand hnil rfl,hcut,
          decide_eq_true_eq]
        constructor
        · rintro ⟨⟨hp,htop⟩,hlinks⟩
          exact ⟨hlinks,fun _ => ⟨hp,hnil,htop⟩⟩
        · rintro ⟨hlinks,hentry⟩
          obtain ⟨hp,_,htop⟩ := hentry hid
          exact ⟨⟨hp,htop⟩,hlinks⟩
    · have hentry : (h.deleteLocked id pick).entry = h.entry := if_neg (Ne.symm hid)
      have hne' : (h.deleteLocked id pick).entry ≠ [] := by rwa [hentry]
      rw [sound_of_filter_iff (p := fun x => decide (x ≠ id)) hnodes hsound.links_stand hne' rfl,hcut,hentry,
        decide_eq_true_eq]
      constructor
      · exact fun hafter => ⟨hafter.2,fun h => absurd h hid⟩
      · exact fun hcareful => ⟨⟨Ne.symm hid,exists_layers_iff.mpr (hsound.entry_stands hne)⟩,hcareful.1⟩
  · rw [deleteLocked_of_not_live hsound hlive]
    exact iff_of_true hsound fun h => absurd h hlive

lemma clearByPrefix_keepsSound_iff (mutex : Mutex) (hsound : h.Sound) (pre : Bytes) :
    KeepsSound score mutex h (.clearByPrefix pre) ↔ Careful mutex h (.clearByPrefix pre) := by
  have heq : perform score mutex ⟨h,[]⟩ (.clearByPrefix pre) = (.ok (),⟨h.clearLocked pre,[.Lock,.Unlock]⟩) := by
    rw [perform,clearByPrefix,under_of_not_held mutex rfl,deferred_ok]
    rfl
  rw [keepsSound_of_ok heq,Careful]
  by_cases hnil : h.nodes = []
  · refine iff_of_true ?_ (.inl hnil)
    have hsame : h.clearLocked pre = h := by
      rw [clearLocked,hnil,filter_nil,← hnil]
    rwa [hsame]
  · have hne : h.entry ≠ [] := mt hsound.entry_eq_nil_iff.mp hnil
    have hnodes : (h.clearLocked pre).nodes = h.nodes.filter fun f => decide (¬ pre.isPrefixOf f.1) := rfl
    rw [sound_of_filter_iff (p := fun x => decide (¬ pre.isPrefixOf x)) hnodes hsound.links_stand hne rfl]
    simp only [decide_eq_true_eq, isPrefixOf_iff_prefix,hnil,false_or]
    constructor
    · exact fun hafter => ⟨hafter.1.1,hafter.2⟩
    · exact fun hcareful => ⟨⟨hcareful.1,exists_layers_iff.mpr (hsound.entry_stands hne)⟩,hcareful.2⟩

lemma sound_insertNode_iff (hsound : h.Sound) (hentry : h.entry = []) (id : Bytes) (vec : List F) (l : ℕ) :
    ({ h.insertNode id vec l with entry := id, maxLayer := l } : HNSWIndex F).Sound ↔ id ≠ [] := by
  constructor
  · rintro hafter rfl
    have hnil : (h.insertNode [] vec l).nodes = [] := hafter.entry_eq_nil_iff.mp rfl
    have hget := get_insertNode h [] vec l []
    rw [hnil] at hget
    simp [Directory.get] at hget
  · intro hid
    have hstands (lc : ℕ) := stands_insertNode_self h id vec l lc
    refine sound_of_stands hid ⟨(hstands l).mpr le_rfl,fun h => absurd ((hstands (l+1)).mp h) (by omega)⟩ ?_
    refine (linksStand_insertNode h id vec l hsound.links_stand).mpr fun lc other _ _ hmem => ?_
    rw [linksAt,hsound.entry_eq_nil_iff.mp hentry] at hmem
    cases hmem

lemma perform_add_reentrant (score : List F → List F → S) {vec : List F} (hdim : vec.length = h.dim) (id : Bytes)
    (l : Fin 9) :
    perform score .reentrant ⟨h,[]⟩ (.add id vec l) =
      deferred .Unlock (addLocked score .reentrant id vec l ⟨h,[.Lock]⟩) := by
  rw [perform,add,if_neg (not_not.mpr hdim),under_reentrant]
  rfl

lemma add_keepsSound_iff (mutex : Mutex) (hsound : h.Sound) (hm : h.m = 16) (id : Bytes) (vec : List F) (l : Fin 9) :
    KeepsSound score mutex h (.add id vec l) ↔ Careful mutex h (.add id vec l) := by
  rw [Careful]
  by_cases hdim : vec.length = h.dim
  · simp only [hdim,true_imp_iff]
    by_cases hentry : h.entry = []
    · rw [if_pos hentry,← sound_insertNode_iff hsound hentry id vec l]
      have heq : perform score mutex ⟨h,[]⟩ (.add id vec l) = _ :=
        add_of_entry_nil (t := ⟨h,[]⟩) mutex rfl l hdim hentry
      exact keepsSound_of_ok heq
    · rw [if_neg hentry]
      cases mutex with
      | rwMutex =>
        have heq : perform score .rwMutex ⟨h,[]⟩ (.add id vec l) = _ := add_of_entry (t := ⟨h,[]⟩) rfl l hdim hentry
        exact iff_of_true (by simp [KeepsSound,step,heq]) (.inl rfl)
      | reentrant =>
        have hadd := perform_add_reentrant score hdim id l
        by_cases hfits : h.FitsIn id l
        · obtain ⟨t',heq,hafter⟩ :=
            addLocked_of_fitsIn (t := ⟨h,[.Lock]⟩) score (show 1 ≤ h.m by omega) hsound hentry vec hfits
          rw [heq,deferred_ok] at hadd
          exact iff_of_true ((keepsSound_of_ok hadd).mpr hafter) (.inr hfits)
        · refine iff_of_false ?_ (by simp [hfits])
          rintro ⟨hindex,_,hkeeps⟩
          have hblocked := (addLocked_grows (t := ⟨h,[.Lock]⟩) score id vec l hentry).2
          rcases addLocked_of_not_fitsIn (t := ⟨h,[.Lock]⟩) score hsound hentry vec hfits with hpanic | hafter
          · rw [hadd,deferred_result] at hindex
            exact hindex hpanic
          · refine hafter (hkeeps _ ?_)
            rw [step_of_not_blocked (by rwa [hadd,deferred_result]),hadd,deferred_index]
  · have hskip : perform score mutex ⟨h,[]⟩ (.add id vec l) = (.ok (),⟨h,[]⟩) := by
      rw [perform,add,if_pos hdim]
    exact iff_of_true ((keepsSound_of_ok hskip).mpr hsound) fun h => absurd h hdim

/-- A search of a sound index ends; only a product `k*4` that wraps to a negative number makes it panic. -/
lemma topKLocked_of_sound (score : List F → List F → S) (hsound : h.Sound) (q : List F) (k : ℤ) :
    (∃ hits, h.topKLocked score q k = .ok hits) ∨ h.topKLocked score q k = .error .sliceOutOfRange := by
  rw [topKLocked]
  split
  · exact .inl ⟨[],rfl⟩
  · rename_i hsome
    have hentry : h.entry ≠ [] := fun h => hsome (.inr h)
    have htop : h.Stands (0+h.maxLayer) h.entry := by
      rw [Nat.zero_add]
      exact (hsound.entry_stands hentry).1
    obtain ⟨curr,hdescend,hcurr,_⟩ := descendLocked_eq_ok score q hsound.links_stand htop
    simp only [hdescend]
    rcases lt_or_ge (goInt (k*4)) 0 with hneg | hnonneg
    · rw [searchLayerLocked_of_neg score q hsound.links_stand hcurr hneg]
      exact .inr rfl
    · obtain ⟨ef,hef⟩ := Int.eq_ofNat_of_zero_le hnonneg
      obtain ⟨out,seen,hout,_,hseen,hsub,_⟩ := searchLayerLocked_eq_ok score q hsound.links_stand hcurr ef
      obtain ⟨hits,hhits,_⟩ := scored_eq_ok score q fun id (hid : id ∈ out.take k.toNat) =>
        (Reaches.stands hsound.links_stand hcurr ((hseen id).mp (hsub.subset (mem_of_mem_take hid)))).live
      rw [hef,hout]
      simp only [hhits]
      exact .inl ⟨_,rfl⟩

lemma keepsSound_of_read (hsound : h.Sound) (hindex : (perform score mutex ⟨h,[]⟩ op).2.index = h)
    (hresult : (perform score mutex ⟨h,[]⟩ op).1 = .ok () ∨
      (perform score mutex ⟨h,[]⟩ op).1 = .error (.panic .sliceOutOfRange)) :
    KeepsSound score mutex h op := by
  have hnot : (perform score mutex ⟨h,[]⟩ op).1 ≠ .error .blocked := by rcases hresult with h | h <;> simp [h]
  refine ⟨by rcases hresult with h | h <;> simp [h],by rcases hresult with h | h <;> simp [h],fun h' hstep => ?_⟩
  rw [step_of_not_blocked hnot,hindex,Option.some.injEq] at hstep
  exact hstep ▸ hsound

lemma perform_topK (score : List F → List F → S) (mutex : Mutex) (query : List F) (k : ℤ) :
    perform score mutex ⟨h,[]⟩ (.topK query k) =
      discard (lift (h.topKLocked score query (if k ≤ 0 then 5 else k)),⟨h,[.RLock,.RUnlock]⟩) := by
  rw [perform,topK,under_of_not_held mutex rfl,deferred_lift]
  rfl

lemma topK_keepsSound (mutex : Mutex) (hsound : h.Sound) (query : List F) (k : ℤ) :
    KeepsSound score mutex h (.topK query k) := by
  have heq := perform_topK (h := h) score mutex query k
  refine keepsSound_of_read hsound (by rw [heq,discard_events]) ?_
  rw [heq]
  rcases topKLocked_of_sound score hsound query (if k ≤ 0 then 5 else k) with ⟨hits,hhits⟩ | hpanic
  · rw [hhits]
    exact .inl rfl
  · rw [hpanic]
    exact .inr rfl

/-- One call keeps a sound index sound exactly when it is careful. -/
theorem keepsSound_iff_careful (mutex : Mutex) (hsound : h.Sound) (hm : h.m = 16) (hatom : op ∈ op.atoms) :
    KeepsSound score mutex h op ↔ Careful mutex h op := by
  cases op with
  | add id vec l => exact add_keepsSound_iff mutex hsound hm id vec l
  | delete id pick => exact delete_keepsSound_iff mutex hsound id pick
  | clearByPrefix pre => exact clearByPrefix_keepsSound_iff mutex hsound pre
  | topK query k => exact iff_of_true (topK_keepsSound mutex hsound query k) trivial
  | mergeSnapshot vectors => simp [atoms] at hatom
  | dim => exact iff_of_true (keepsSound_of_read hsound rfl (.inl rfl)) trivial
  | size | saveSnapshot | saveSnapshotPrefix pre =>
    cases mutex <;> exact iff_of_true (keepsSound_of_read hsound rfl (.inl rfl)) trivial

lemma step_m (hatom : op ∈ op.atoms) {h' : HNSWIndex F} (hstep : step score mutex h op = some h') :
    h'.m = h.m := by
  cases op with
  | add id vec l =>
    have hm := (add_constants mutex score id vec l ⟨h,[]⟩).2
    rw [step,perform] at hstep
    rcases hadd : add score mutex id vec l ⟨h,[]⟩ with ⟨(_ | _) | _,t⟩ <;> rw [hadd] at hstep hm <;> cases hstep
    · exact hm
    · exact hm
  | mergeSnapshot vectors => simp [atoms] at hatom
  | topK query k =>
    rw [step,perform_topK] at hstep
    cases hresult : h.topKLocked score query (if k ≤ 0 then 5 else k) <;>
    · rw [hresult] at hstep
      cases hstep
      rfl
  | delete | clearByPrefix | dim | size | saveSnapshot | saveSnapshotPrefix =>
    cases mutex <;>
    · cases hstep
      rfl

end Steps

/-- A run keeps the index sound, and none of its calls indexes out of range or dereferences a missing node, exactly
as long as all of its calls are careful. -/
theorem meets_keepsSound_iff_careful (score : List F → List F → S) (mutex : Mutex) (dim : ℕ)
    (ops : List (Operation F)) :
    Runs.Meets (step score mutex) (KeepsSound score mutex) (new dim) (ops.flatMap atoms) ↔
      Runs.Meets (step score mutex) (Careful mutex) (new dim) (ops.flatMap atoms) := by
  have hatom : ∀ op ∈ ops.flatMap atoms, op ∈ op.atoms := by
    intro op hop
    obtain ⟨whole,_,hop⟩ := mem_flatMap.mp hop
    cases whole with
    | mergeSnapshot vectors =>
      obtain ⟨v,_,rfl⟩ := mem_map.mp hop
      exact mem_singleton_self _
    | add | delete | clearByPrefix | dim | size | topK | saveSnapshot | saveSnapshotPrefix =>
      obtain rfl := mem_singleton.mp hop
      exact mem_singleton_self _
  have hiff : ∀ op ∈ ops.flatMap atoms, ∀ h : HNSWIndex F, h.Sound ∧ h.m = 16 →
      (KeepsSound score mutex h op ↔ Careful mutex h op) :=
    fun op hop h hinv => keepsSound_iff_careful mutex hinv.1 hinv.2 (hatom op hop)
  have hkeep : ∀ op ∈ ops.flatMap atoms, ∀ h h' : HNSWIndex F, h.Sound ∧ h.m = 16 → KeepsSound score mutex h op →
      step score mutex h op = some h' → h'.Sound ∧ h'.m = 16 :=
    fun op hop h h' hinv hkeeps hstep => ⟨hkeeps.2.2 h' hstep,(step_m (hatom op hop) hstep).trans hinv.2⟩
  exact Runs.meets_iff hiff hkeep ⟨sound_new dim,rfl⟩

/-- Deleting the only node leaves its id as the entry. Where the mutex would grant the second request, a second
node with one layer more than the first makes `add` index out of range. -/
theorem delete_last_not_sound :
    (∃ h₁ h₂, step (fun _ _ : List ℕ => (0 : ℕ)) .rwMutex (new 1) (.add [97] [0] 0) = some h₁ ∧
      step (fun _ _ : List ℕ => (0 : ℕ)) .rwMutex h₁ (.delete [97] 0) = some h₂ ∧
      h₂.nodes = [] ∧ h₂.entry = [97] ∧ ¬ h₂.Sound) ∧
    ∃ h₁, step (fun _ _ : List ℕ => (0 : ℕ)) .reentrant (new 1) (.add [97] [0] 0) = some h₁ ∧
      (perform (fun _ _ : List ℕ => (0 : ℕ)) .reentrant ⟨h₁,[]⟩ (.add [98] [0] 1)).1 =
        .error (.panic .indexOutOfRange) := by
  refine ⟨⟨_,_,rfl,rfl,rfl,rfl,fun hsound => ?_⟩,_,rfl,rfl⟩
  have hnil := hsound.entry_eq_nil_iff.mpr rfl
  cases hnil

end TitanKV.Services.Rag.HNSWIndex
