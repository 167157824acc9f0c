import TitanKV.Services.Rag.HnswIndex

/-! Searches in a graph whose links lead somewhere: they end, they do not panic, and exploring a layer
finds what its links connect to the start. -/
namespace TitanKV.Services.Rag.HNSWIndex
open List Option
open Minikv (Bytes)
open Exploration (Reaches)

variable {F S : Type*} [LinearOrder S] {score : List F → List F → S} {h : HNSWIndex F} {q : List F}

section Definitions
variable (h : HNSWIndex F)

def Live (id : Bytes) : Prop := ∃ node, h.nodes.get id = some node

/-- The node is there and has layer `lc`. -/
def Stands (lc : ℕ) (id : Bytes) : Prop := ∃ node, h.nodes.get id = some node ∧ lc<node.layers.length

def linksAt (lc : ℕ) (id : Bytes) : List Bytes := ((h.nodes.get id).bind fun node => node.layers[lc]?).getD []

def LinksStand : Prop := ∀ lc id, ∀ nb ∈ h.linksAt lc id, h.Stands lc nb

end Definitions

variable {id : Bytes} {lc : ℕ}

lemma linksAt_of_get {node : HnswNode F} (hget : h.nodes.get id = some node) :
    h.linksAt lc id = (node.layers[lc]?).getD [] := by
  rw [linksAt,hget,bind_some]

lemma Stands.live (hs : h.Stands lc id) : h.Live id :=
  let ⟨node,hget,_⟩ := hs
  ⟨node,hget⟩

lemma Stands.mono {lc lc' : ℕ} (hs : h.Stands lc id) (hle : lc'≤lc) : h.Stands lc' id :=
  let ⟨node,hget,hlt⟩ := hs
  ⟨node,hget,hle.trans_lt hlt⟩

lemma neighboursAt_eq_ok (hs : h.Stands lc id) :
    h.neighboursAt lc id = .ok (h.linksAt lc id) := by
  obtain ⟨node,hget,hlt⟩ := hs
  simp only [neighboursAt,linksAt_of_get hget,hget,getElem?_eq_getElem hlt,getD_some]

lemma neighboursAt_of_not_stands (hlive : h.Live id) (hs : ¬ h.Stands lc id) :
    h.neighboursAt lc id = .error .indexOutOfRange := by
  obtain ⟨node,hget⟩ := hlive
  have hle : node.layers.length≤lc := not_lt.mp fun hlt => hs ⟨node,hget,hlt⟩
  simp only [neighboursAt,hget,getElem?_eq_none hle]

lemma live_iff_mem : h.Live id ↔ id ∈ h.nodes.names := by
  rw [Live,← isSome_iff_exists,← not_iff_not,not_isSome_iff_eq_none,Directory.get_eq_none_iff]

lemma Reaches.stands (hlinks : h.LinksStand) {layer : ℕ} {start id : Bytes} (hs : h.Stands layer start)
    (hreach : Reaches (h.linksAt layer) start id) : h.Stands layer id := by
  induction hreach with
  | refl => exact hs
  | tail _ hlink _ => exact hlinks layer _ _ hlink

/-- No link leads out of a set of nodes. -/
def Closed (h : HNSWIndex F) (P : Bytes → Prop) : Prop := ∀ lc x, P x → ∀ nb ∈ h.linksAt lc x, P nb

lemma Closed.reaches {P : Bytes → Prop} (hP : h.Closed P) {layer : ℕ} {start id : Bytes}
    (hreach : Reaches (h.linksAt layer) start id) (hstart : P start) : P id := by
  induction hreach with
  | refl => exact hstart
  | tail _ hlink ih => exact hP layer _ ih _ hlink

section Greedy

/-- What a pass returns: an unimproved pass is where it started, an improved one stands on a neighbour with
a better score. -/
lemma greedyPass_spec (links : List Bytes) (curr : Bytes) (s : S) (improved : Bool) :
    h.greedyPass score q links (curr,s,improved) = (curr,s,improved) ∨
      ∃ nb ∈ links, ∃ node, h.nodes.get nb = some node ∧ s < score q node.vec ∧
        h.greedyPass score q links (curr,s,improved) = (nb,score q node.vec,true) := by
  induction links generalizing curr s improved with
  | nil => exact .inl rfl
  | cons x links ih =>
    rw [greedyPass]
    cases hget : h.nodes.get x with
    | none =>
      rcases ih curr s improved with hsame | ⟨nb,hnb,found⟩
      · exact .inl hsame
      · exact .inr ⟨nb,mem_cons_of_mem x hnb,found⟩
    | some node =>
      simp only
      split
      · rename_i hlt
        rcases ih x (score q node.vec) true with hsame | ⟨nb,hnb,node',hget',hlt',hpass⟩
        · exact .inr ⟨x,mem_cons_self,node,hget,hlt,hsame⟩
        · exact .inr ⟨nb,mem_cons_of_mem x hnb,node',hget',hlt.trans hlt',hpass⟩
      · rcases ih curr s improved with hsame | ⟨nb,hnb,found⟩
        · exact .inl hsame
        · exact .inr ⟨nb,mem_cons_of_mem x hnb,found⟩

/-- A move to a better node leaves fewer nodes that are better still. -/
lemma countP_better_lt {id : Bytes} {node : HnswNode F} (hget : h.nodes.get id = some node) {s : S}
    (hlt : s < score q node.vec) :
    h.nodes.countP (fun n => score q node.vec < score q n.2.vec) < h.nodes.countP fun n => s < score q n.2.vec := by
  obtain ⟨f,hfind,hf⟩ := map_eq_some_iff.mp hget
  have hmem : f ∈ h.nodes := mem_of_find?_eq_some hfind
  obtain ⟨before,after,hsplit⟩ := append_of_mem hmem
  have hmono (l : List (Bytes × HnswNode F)) :
      l.countP (fun n => decide (score q node.vec < score q n.2.vec)) ≤ l.countP fun n =>
        decide (s < score q n.2.vec) := by
    refine countP_mono_left fun n _ hn => ?_
    rw [decide_eq_true_eq] at hn ⊢
    exact hlt.trans hn
  rw [hsplit,countP_append,countP_append,countP_cons,countP_cons,hf]
  simp only [lt_self_iff_false,decide_false,Bool.false_eq_true,if_false,decide_eq_true hlt,if_true]
  exact Nat.lt_of_le_of_lt (Nat.add_le_add (hmono before) (hmono after)) (by omega)

lemma greedyLoop_eq_ok (hlinks : h.LinksStand) {layer fuel : ℕ} {curr : Bytes} {s : S} (hs : h.Stands layer curr)
    (hfuel : h.nodes.countP (fun n => s < score q n.2.vec) < fuel) :
    ∃ id, h.greedyLoop score q layer fuel curr s = .ok id ∧ Reaches (h.linksAt layer) curr id := by
  induction fuel generalizing curr s with
  | zero => exact absurd hfuel (Nat.not_lt_zero _)
  | succ fuel ih =>
    simp only [greedyLoop,neighboursAt_eq_ok hs]
    rcases greedyPass_spec (h.linksAt layer curr) curr s false with hsame | ⟨nb,hnb,node,hget,hlt,hpass⟩
    · rw [hsame]
      exact ⟨curr,rfl,Relation.ReflTransGen.refl⟩
    · rw [hpass]
      have hfewer := countP_better_lt hget hlt
      obtain ⟨id,hid,hreach⟩ := ih (s := score q node.vec) (hlinks layer curr nb hnb) (by omega)
      exact ⟨id,hid,Relation.ReflTransGen.head hnb hreach⟩

variable (score q)

theorem greedyClosestLocked_eq_ok (hlinks : h.LinksStand) {layer : ℕ} {start : Bytes}
    (hs : h.Stands layer start) :
    ∃ id, h.greedyClosestLocked score q start layer = .ok id ∧ Reaches (h.linksAt layer) start id := by
  obtain ⟨node,hget⟩ := hs.live
  simp only [greedyClosestLocked,scoreAt,hget]
  exact greedyLoop_eq_ok hlinks hs (Nat.lt_succ_of_le countP_le_length)

lemma greedyClosestLocked_of_not_stands {layer : ℕ} {start : Bytes} (hlive : h.Live start)
    (hs : ¬ h.Stands layer start) : h.greedyClosestLocked score q start layer = .error .indexOutOfRange := by
  have hnext := neighboursAt_of_not_stands hlive hs
  obtain ⟨node,hget⟩ := hlive
  simp only [greedyClosestLocked,scoreAt,hget,greedyLoop,hnext]

/-- The walk ends on a node with layer `l`, and inside every set of nodes that no link leaves. -/
theorem descendLocked_eq_ok (hlinks : h.LinksStand) {l n : ℕ} {curr : Bytes} (hs : h.Stands (l+n) curr) :
    ∃ id, h.descendLocked score q l n curr = .ok id ∧ h.Stands l id ∧
      ∀ P : Bytes → Prop, h.Closed P → P curr → P id := by
  induction n generalizing curr with
  | zero => exact ⟨curr,rfl,hs,fun _ _ hcurr => hcurr⟩
  | succ n ih =>
    obtain ⟨next,hnext,hreach⟩ := greedyClosestLocked_eq_ok score q hlinks hs
    obtain ⟨id,hid,hstands,hinside⟩ := ih ((Reaches.stands hlinks hs hreach).mono (by omega))
    simp only [descendLocked,Nat.add_assoc,hnext]
    exact ⟨id,hid,hstands,fun P hP hcurr => hinside P hP (hP.reaches hreach hcurr)⟩

end Greedy

section Layer

variable {ids : List Bytes}

variable (score q)

omit [LinearOrder S] in
lemma scored_eq_ok (hlive : ∀ id ∈ ids, h.Live id) :
    ∃ l, h.scored score q ids = .ok l ∧ l.map Prod.fst = ids := by
  induction ids with
  | nil => exact ⟨[],rfl,rfl⟩
  | cons id ids ih =>
    obtain ⟨l,hl,hids⟩ := ih fun x hx => hlive x (mem_cons_of_mem id hx)
    obtain ⟨node,hget⟩ := hlive id mem_cons_self
    refine ⟨(id,score q node.vec)::l,?_,by rw [map_cons,hids]⟩
    simp only [scored,scoreAt,hget,hl]

lemma bestCandidate_eq_ok (hne : ids ≠ [])
    (hlive : ∀ id ∈ ids, h.Live id) :
    ∃ c rest, h.bestCandidate score q ids = .ok (c,rest) ∧ List.Perm (c::rest) ids := by
  obtain ⟨l,hl,hids⟩ := scored_eq_ok score q hlive
  cases l with
  | nil => exact absurd hids.symm hne
  | cons x xs =>
    have hget := Extraction.getElem?_maxPosition Prod.snd (x::xs) 0 x 1 xs rfl
      fun n => by rw [Nat.add_comm,getElem?_cons_succ]
    simp only [bestCandidate,hl]
    refine ⟨_,_,rfl,?_⟩
    have hid : ids[(Extraction.maxPosition Prod.snd 0 x 1 xs).1]? =
        some (Extraction.maxPosition Prod.snd 0 x 1 xs).2.1 := by
      rw [← hids,getElem?_map,hget,map_some]
    obtain ⟨hlt,hid⟩ := List.getElem?_eq_some_iff.mp hid
    rw [← hid]
    exact getElem_cons_eraseIdx_perm hlt

lemma sortByScore_eq_ok (hlive : ∀ id ∈ ids, h.Live id) :
    ∃ r, h.sortByScore score q ids = .ok r ∧ List.Perm r ids := by
  obtain ⟨l,hl,hids⟩ := scored_eq_ok score q hlive
  simp only [sortByScore,hl]
  refine ⟨_,rfl,?_⟩
  rw [← hids]
  exact ((Extraction.exchange Prod.snd).select_perm (l.length-1) l).map Prod.fst

lemma trimTo_eq_ok (ef : ℕ) (hlive : ∀ id ∈ ids, h.Live id) :
    ∃ r, h.trimTo score q ef ids = .ok r ∧ List.Subperm r ids ∧ r.length = min ef ids.length := by
  rw [trimTo]
  split
  · obtain ⟨r,hr,hperm⟩ := sortByScore_eq_ok score q hlive
    simp only [hr,if_neg (not_lt.mpr (Int.natCast_nonneg ef)),Int.toNat_natCast]
    refine ⟨_,rfl,(r.take_sublist ef).subperm.trans hperm.subperm,?_⟩
    rw [length_take,hperm.length_eq]
  · refine ⟨ids,rfl,Subperm.refl _,?_⟩
    omega

def standing (h : HNSWIndex F) (lc : ℕ) : List Bytes :=
  h.nodes.names.filter fun id => (h.nodes.get id).any fun node => lc<node.layers.length

lemma mem_standing {lc : ℕ} {id : Bytes} : id ∈ h.standing lc ↔ h.Stands lc id := by
  rw [standing,mem_filter,Option.any_eq_true]
  constructor
  · rintro ⟨_,node,hget,hlt⟩
    exact ⟨node,hget,of_decide_eq_true hlt⟩
  · rintro ⟨node,hget,hlt⟩
    exact ⟨live_iff_mem.mp ⟨node,hget⟩,node,hget,decide_eq_true hlt⟩

lemma length_standing_le (lc : ℕ) : (h.standing lc).length≤h.nodes.length :=
  (length_filter_le _ _).trans (length_map _).le

lemma searchLayer_safe (hlinks : h.LinksStand) (ef layer : ℕ) :
    Exploration.Rules.Safe ⟨h.bestCandidate score q,h.neighboursAt layer,h.trimTo score q ef,Panic.diverged⟩
      (h.standing layer) (h.linksAt layer) ef := by
  refine ⟨fun x hx => neighboursAt_eq_ok (mem_standing.mp hx),fun x _ y hy => mem_standing.mpr (hlinks layer x y hy),
    ?_,?_⟩
  · intro cs hne hcs
    exact bestCandidate_eq_ok score q hne fun id hid => (mem_standing.mp (hcs id hid)).live
  · intro l hl
    exact trimTo_eq_ok score q ef fun id hid => (mem_standing.mp (hl id hid)).live

variable {start : Bytes} {layer : ℕ}

theorem searchLayerLocked_eq_ok (hlinks : h.LinksStand)
    (hs : h.Stands layer start) (ef : ℕ) :
    ∃ out seen, h.searchLayerLocked score q start ef layer = .ok out ∧ seen.Nodup ∧
      (∀ x, x ∈ seen ↔ Reaches (h.linksAt layer) start x) ∧ List.Subperm out seen ∧
      (1≤ef → out.length = min ef seen.length) := by
  obtain ⟨found,seen,hfound,hnodup,hseen,hsub,hlength⟩ :=
    Exploration.explore_eq_ok (searchLayer_safe score q hlinks ef layer)
    h.nodes.length (Exploration.explored_start (mem_standing.mpr hs))
      (Nat.add_le_add_right (length_standing_le layer) 1)
  obtain ⟨out,hout,hperm⟩ := sortByScore_eq_ok score q
    fun id hid => (Reaches.stands hlinks hs ((hseen id).mp (hsub.subset hid))).live
  refine ⟨out,seen,?_,hnodup,hseen,hperm.subperm.trans hsub,fun hef => hperm.length_eq.trans (hlength hef)⟩
  simp only [searchLayerLocked,hfound,hout]

lemma ne_nil_of_searchLayerLocked {links : Bytes → List Bytes} {out seen : List Bytes} {ef : ℕ} (hef : 1≤ef)
    (hseen : ∀ x, x ∈ seen ↔ Reaches links start x) (hlength : 1≤ef → out.length = min ef seen.length) :
    out ≠ [] := by
  rintro rfl
  have hpos := length_pos_of_mem ((hseen start).mpr Relation.ReflTransGen.refl)
  have hzero := hlength hef
  rw [length_nil] at hzero
  omega

lemma Live.exists_length_eq_succ {id : Bytes} (hlive : h.Live id) : ∃ n, h.nodes.length = n+1 := by
  have hpos := length_pos_of_mem (live_iff_mem.mp hlive)
  rw [Directory.names,length_map] at hpos
  exact Nat.exists_eq_add_of_le' hpos

lemma searchLayerLocked_of_neg (hlinks : h.LinksStand)
    (hs : h.Stands layer start) {ef : ℤ} (hef : ef<0) :
    h.searchLayerLocked score q start ef layer = .error .sliceOutOfRange := by
  obtain ⟨curr,rest,hbest,hperm⟩ := bestCandidate_eq_ok score q (cons_ne_nil start [])
    fun id hid => mem_singleton.mp hid ▸ hs.live
  have hcurr : h.Stands layer curr := by
    have hmem : curr ∈ [start] := hperm.subset mem_cons_self
    exact mem_singleton.mp hmem ▸ hs
  have hlive : ∀ id ∈ [start] ++ Exploration.discover [start] (h.linksAt layer curr), h.Live id := by
    intro id hid
    rcases (Exploration.mem_append_discover _ _ id).mp hid with hid | hid
    · exact mem_singleton.mp hid ▸ hs.live
    · exact (hlinks layer curr id hid).live
  obtain ⟨found,hfound,_⟩ := sortByScore_eq_ok score q hlive
  have htrim : h.trimTo score q ef ([start] ++ Exploration.discover [start] (h.linksAt layer curr)) =
      .error .sliceOutOfRange := by
    rw [trimTo,if_pos (by omega),hfound]
    simp only [if_pos hef]
  obtain ⟨fuel,hfuel⟩ := hs.live.exists_length_eq_succ
  rw [searchLayerLocked,hfuel,Exploration.explore]
  simp only [hbest,neighboursAt_eq_ok hcurr,htrim]

lemma searchLayerLocked_of_not_stands (hlive : h.Live start) (hs : ¬ h.Stands layer start) (ef : ℤ) :
    h.searchLayerLocked score q start ef layer = .error .indexOutOfRange := by
  obtain ⟨curr,rest,hbest,hperm⟩ := bestCandidate_eq_ok score q (cons_ne_nil start [])
    fun id hid => mem_singleton.mp hid ▸ hlive
  have hmem : curr ∈ [start] := hperm.subset mem_cons_self
  obtain rfl := mem_singleton.mp hmem
  have hnext : h.neighboursAt layer curr = .error .indexOutOfRange := neighboursAt_of_not_stands hlive hs
  obtain ⟨fuel,hfuel⟩ := hlive.exists_length_eq_succ
  rw [searchLayerLocked,hfuel,Exploration.explore]
  simp only [hbest,hnext]

end Layer
end TitanKV.Services.Rag.HNSWIndex
