import Mathlib.Tactic
import Mathlib.Data.List.Sort
import Mathlib.Data.List.Perm.Basic

/-! Merging runs by always taking the least head. Where a run is not sorted, an element that is
smaller than one before it is taken right behind that one: the merge sorts the elements by the largest
key of their run up to them. -/
namespace TitanKV.HeadMerge
open List Function Std
variable {α β γ : Type*} [Ord β] (key : α → β)

/-- The elements that are taken, in that order, when the least head is always the only one. -/
inductive Emits : (ℕ → List α) → List α → Prop
  | done {runs : ℕ → List α} (empty : ∀ i, runs i = []) : Emits runs []
  | take {runs : ℕ → List α} {out rest : List α} {x : α} (i : ℕ) (head : runs i = x::rest)
    (least : ∀ j, j ≠ i → ∀ y ∈ (runs j).head?, compare (key x) (key y) = .lt)
    (next : Emits (Function.update runs i rest) out) : Emits runs (x::out)

def raise : Option β → β → β
  | none,k => k
  | some m,k => if compare m k = .lt then k else m

/-- An element of a run, the largest key up to it and its position. -/
structure Mark (α β : Type*) where
  surface : β
  index : ℕ
  item : α

namespace Mark

def cmp (a b : Mark α β) : Ordering := (compare a.surface b.surface).then (compare a.index b.index)

def Le (a b : Mark α β) : Prop := (a.cmp b).isLE = true

instance : DecidableRel (@Le α β _) := fun _ _ => inferInstanceAs (Decidable (_ = true))

lemma lt_of_surface {a b : Mark α β} (h : compare a.surface b.surface = .lt) : a.cmp b = .lt := by
  rw [cmp,h]
  rfl

end Mark

/-- The marks of a run whose largest key so far is `m`. -/
def marks (m : Option β) (i : ℕ) : List α → List (Mark α β)
  | [] => []
  | x::xs => ⟨raise m (key x),i,x⟩::marks (some (raise m (key x))) (i+1) xs

/-- All elements in the order of the largest keys up to them. -/
def surfacing (runs : List (List α)) : List α :=
  ((runs.flatMap (marks key none 0)).insertionSort Mark.Le).map Mark.item

def Rising (l : List (Mark α β)) : Prop :=
  l.IsChain fun a b => b.surface = raise (some a.surface) (key b.item) ∧ a.index<b.index

section Marks
variable {key}

lemma raise_eq_of_lt {m : Option β} {k : β} (h : ∀ x ∈ m, compare x k = .lt) : raise m k = k := by
  cases m with
  | none => rfl
  | some x => exact if_pos (h x rfl)

lemma raise_lt {m : Option β} {k k' : β} (h : ∀ x ∈ m, compare x k' = .lt) (hk : compare k k' = .lt) :
    compare (raise m k) k' = .lt := by
  cases m with
  | none => exact hk
  | some x =>
    rw [raise]
    split
    · exact hk
    · exact h x rfl

@[simp] theorem map_item_marks (m : Option β) (i : ℕ) (l : List α) : (marks key m i l).map Mark.item = l := by
  induction l generalizing m i with
  | nil => rfl
  | cons x xs ih => rw [marks,map_cons,ih]

@[simp] theorem mem_surfacing {runs : List (List α)} {x : α} : x ∈ surfacing key runs ↔ ∃ run ∈ runs, x ∈ run := by
  have hrun : ∀ run : List α, x ∈ run ↔ ∃ a ∈ marks key none 0 run, a.item = x := by
    intro run
    rw [← mem_map,map_item_marks]
  rw [surfacing,mem_map]
  simp only [mem_insertionSort,mem_flatMap]
  constructor
  · rintro ⟨a,⟨run,hr,ha⟩,hx⟩
    exact ⟨run,hr,(hrun run).mpr ⟨a,ha,hx⟩⟩
  · rintro ⟨run,hr,hx⟩
    obtain ⟨a,ha,hax⟩ := (hrun run).mp hx
    exact ⟨a,⟨run,hr,ha⟩,hax⟩

lemma rising_marks (m : Option β) (i : ℕ) (l : List α) : Rising key (marks key m i l) := by
  induction l generalizing m i with
  | nil => exact List.IsChain.nil
  | cons x xs ih =>
    cases xs with
    | nil => exact List.IsChain.singleton _
    | cons y ys => exact List.IsChain.cons_cons ⟨rfl,Nat.lt_succ_self i⟩ (ih _ _)

variable {runs : ℕ → List α} {out : List α}

/-- A merge of elements is a merge of what they are the images of. -/
theorem Emits.lift (h : Emits key runs out) (f : γ → α)
    {runs' : ℕ → List γ} (hruns : ∀ i, (runs' i).map f = runs i) :
    ∃ out', out'.map f = out ∧ Emits (fun c => key (f c)) runs' out' := by
  induction h generalizing runs' with
  | done hempty =>
    refine ⟨[],rfl,.done fun i => ?_⟩
    have hi := hruns i
    rwa [hempty,map_eq_nil_iff] at hi
  | take i hhead hleast _ ih =>
    have hi := hruns i
    rw [hhead] at hi
    obtain ⟨c,cs,hcs,rfl,rfl⟩ := map_eq_cons_iff.mp hi
    obtain ⟨out',rfl,hout⟩ := @ih (Function.update runs' i cs) fun j => by
      by_cases hj : j = i
      · rw [hj,update_self,update_self]
      · rw [update_of_ne hj,update_of_ne hj,hruns]
    refine ⟨c::out',rfl,.take i hcs ?_ hout⟩
    intro j hj d hd
    refine hleast j hj (f d) ?_
    rw [← hruns j,head?_map]
    exact Option.mem_map_of_mem f hd

lemma Emits.map {f : γ → α} {runs : ℕ → List γ} {out : List γ} (h : Emits (fun c => key (f c)) runs out) :
    Emits key (fun i => (runs i).map f) (out.map f) := by
  induction h with
  | done hempty => exact .done fun i => by rw [hempty,map_nil]
  | @take runs out rest x i hhead hleast _ ih =>
    have hmap : (runs i).map f = f x::rest.map f := by rw [hhead,map_cons]
    refine .take i hmap ?_ ?_
    · intro j hj y hy
      rw [head?_map] at hy
      obtain ⟨z,hz,rfl⟩ := Option.mem_map.mp hy
      exact hleast j hj z hz
    · convert ih using 1
      funext j
      by_cases hj : j = i
      · rw [hj,update_self,update_self]
      · rw [update_of_ne hj,update_of_ne hj]

lemma Emits.mem_iff (h : Emits key runs out) {y : α} :
    y ∈ out ↔ ∃ i, y ∈ runs i := by
  induction h with
  | done hempty => simp [hempty]
  | @take runs out rest x i hhead _ _ ih =>
    rw [mem_cons,ih]
    constructor
    · rintro (rfl | ⟨j,hj⟩)
      · exact ⟨i,by rw [hhead]; exact mem_cons_self⟩
      · by_cases hji : j = i
        · rw [hji,update_self] at hj
          exact ⟨i,by rw [hhead]; exact mem_cons_of_mem x hj⟩
        · rw [update_of_ne hji] at hj
          exact ⟨j,hj⟩
    · rintro ⟨j,hj⟩
      by_cases hji : j = i
      · rw [hji,hhead] at hj
        refine (mem_cons.mp hj).imp id fun hy => ⟨i,?_⟩
        rwa [update_self]
      · exact .inr ⟨j,by rwa [update_of_ne hji]⟩

lemma Emits.perm (h : Emits key runs out) {n : ℕ}
    (hn : ∀ i, n ≤ i → runs i = []) : out.Perm ((range n).flatMap runs) := by
  induction h with
  | done hempty =>
    rw [flatMap_eq_nil_iff.mpr fun i _ => hempty i]
  | @take runs out rest x i hhead _ _ ih =>
    have hi : i<n := by
      by_contra hle
      rw [hn i (Nat.le_of_not_lt hle)] at hhead
      cases hhead
    obtain ⟨before,after,hrange⟩ := append_of_mem (mem_range.mpr hi)
    have hnodup := nodup_range (n := n)
    rw [hrange,nodup_middle,nodup_cons,mem_append,not_or] at hnodup
    have hframe : ∀ l : List ℕ, i ∉ l → l.flatMap (Function.update runs i rest) = l.flatMap runs := by
      intro l hl
      apply flatMap_congr
      intro j hj
      have hne : j ≠ i := fun heq => hl (heq ▸ hj)
      exact update_of_ne hne _ _
    have hrest := ih fun j hj => by
      rw [update_of_ne (by omega)]
      exact hn j hj
    rw [hrange,flatMap_append,flatMap_cons,update_self,hframe before hnodup.1.1,
      hframe after hnodup.1.2] at hrest
    rw [hrange,flatMap_append,flatMap_cons,hhead,cons_append]
    exact (hrest.cons x).trans perm_middle.symm

end Marks

section Sorted
variable [TransOrd β]

namespace Mark

instance : TransCmp (@cmp α β _) :=
  inferInstanceAs (TransCmp (compareLex (compareOn Mark.surface) (compareOn Mark.index)))

instance : IsTrans (Mark α β) Le := ⟨fun _ _ _ hab hbc => TransCmp.isLE_trans hab hbc⟩

lemma le_of_not_lt {a b : Mark α β} (h : a.cmp b ≠ .lt) : b.Le a := by
  rw [Le]
  cases hc : a.cmp b with
  | lt => exact absurd hc h
  | eq => rw [OrientedCmp.eq_symm hc]; rfl
  | gt => rw [OrientedCmp.lt_of_gt hc]; rfl

instance : Std.Total (@Le α β _) where
  total a b := by
    by_cases hlt : a.cmp b = .lt
    · exact .inl (by rw [Le,hlt]; rfl)
    · exact .inr (le_of_not_lt hlt)

end Mark

variable {key} {runs : ℕ → List (Mark α β)} {out : List (Mark α β)} {p : ℕ} {m : Option β}

lemma cmp_raise (m k : β) : compare m (raise (some m) k) ≠ .gt := by
  rw [raise]
  split
  · rename_i hlt
    rw [hlt]
    exact nofun
  · rw [ReflOrd.compare_self]
    exact nofun

lemma Rising.lt {a : Mark α β} {l : List (Mark α β)} (h : Rising key (a::l)) : ∀ b ∈ l, a.cmp b = .lt := by
  induction l generalizing a with
  | nil => exact fun b hb => by cases hb
  | cons c l ih =>
    obtain ⟨⟨hsurface,hindex⟩,hl⟩ := isChain_cons_cons.mp h
    have hac : a.cmp c = .lt := by
      rw [Mark.cmp]
      cases hcmp : compare a.surface c.surface with
      | lt => rfl
      | eq => exact Nat.compare_eq_lt.mpr hindex
      | gt => exact absurd (hsurface ▸ hcmp) (cmp_raise a.surface (key c.item))
    intro b hb
    rcases mem_cons.mp hb with rfl | hb
    · exact hac
    · exact TransCmp.lt_trans hac (ih hl b hb)

/-- The state of a merge that took its last element from run `p`, with `m` the largest key so far: all
other heads are above `m`. -/
structure Merging (key : α → β) (runs : ℕ → List (Mark α β)) (p : ℕ) (m : Option β) : Prop where
  rising : ∀ i, Rising key (runs i)
  active : ∀ a ∈ (runs p).head?, a.surface = raise m (key a.item)
  others : ∀ j, j ≠ p → ∀ a ∈ (runs j).head?, a.surface = key a.item ∧ ∀ k ∈ m, compare k a.surface = .lt

/-- The least head has the least mark, and behind it the state is as before. -/
lemma Merging.take (h : Merging key runs p m) {i : ℕ} {x : Mark α β} {rest : List (Mark α β)}
    (hhead : runs i = x::rest)
    (hleast : ∀ j, j ≠ i → ∀ y ∈ (runs j).head?, compare (key x.item) (key y.item) = .lt) :
    (∀ j, j ≠ i → ∀ y ∈ (runs j).head?, y.surface = key y.item ∧ compare x.surface y.surface = .lt) ∧
      Merging key (Function.update runs i rest) i (some x.surface) := by
  have hx : x ∈ (runs i).head? := by rw [hhead]; rfl
  have hothers : ∀ j, j ≠ i → ∀ y ∈ (runs j).head?, y.surface = key y.item ∧ compare x.surface y.surface = .lt := by
    intro j hj y hy
    have hxy := hleast j hj y hy
    by_cases hi : i = p
    · subst hi
      obtain ⟨hsurface,hm⟩ := h.others j hj y hy
      rw [hsurface] at hm ⊢
      rw [h.active x hx]
      exact ⟨rfl,raise_lt hm hxy⟩
    · obtain ⟨hsurface,hm⟩ := h.others i hi x hx
      rw [hsurface] at hm ⊢
      suffices y.surface = key y.item by rw [this]; exact ⟨rfl,hxy⟩
      by_cases hjp : j = p
      · subst hjp
        rw [h.active y hy]
        exact raise_eq_of_lt fun k hk => TransCmp.lt_trans (hm k hk) hxy
      · exact (h.others j hjp y hy).1
  have hrising : Rising key (x::rest) := hhead ▸ h.rising i
  refine ⟨hothers,⟨?_,?_,?_⟩⟩
  · intro j
    by_cases hj : j = i
    · rw [hj,update_self]
      exact hrising.of_cons
    · rw [update_of_ne hj]
      exact h.rising j
  · intro a ha
    rw [update_self] at ha
    obtain ⟨rest,rfl⟩ := head?_eq_some_iff.mp ha
    exact (isChain_cons_cons.mp hrising).1.1
  · intro j hj a ha
    rw [update_of_ne hj] at ha
    refine ⟨(hothers j hj a ha).1,?_⟩
    intro k hk
    exact Option.mem_some_iff.mp hk ▸ (hothers j hj a ha).2

/-- What is taken comes in the order of the marks. -/
theorem Emits.pairwise (h : Emits (fun a : Mark α β => key a.item) runs out) (hm : Merging key runs p m) :
    out.Pairwise fun a b => a.cmp b = .lt := by
  induction h generalizing p m with
  | done => exact Pairwise.nil
  | @take runs out rest x i hhead hleast hnext ih =>
    obtain ⟨hothers,hmerging⟩ := hm.take hhead hleast
    refine pairwise_cons.mpr ⟨?_,ih hmerging⟩
    intro y hy
    obtain ⟨j,hj⟩ := hnext.mem_iff.mp hy
    by_cases hji : j = i
    · rw [hji,update_self] at hj
      exact Rising.lt (hhead ▸ hm.rising i) y hj
    · rw [update_of_ne hji] at hj
      cases hrun : runs j with
      | nil =>
        rw [hrun] at hj
        cases hj
      | cons z zs =>
        have hxz : x.cmp z = .lt := Mark.lt_of_surface (hothers j hji z (by rw [hrun]; rfl)).2
        rw [hrun] at hj
        rcases mem_cons.mp hj with rfl | hy
        · exact hxz
        · exact TransCmp.lt_trans hxz (Rising.lt (hrun ▸ hm.rising j) y hy)

lemma exists_least (runs : ℕ → List α) (n : ℕ) : (∀ i < n, runs i = []) ∨ ∃ i < n, ∃ x rest, runs i = x::rest ∧
    ∀ j < n, ∀ y ∈ (runs j).head?, (compare (key x) (key y)).isLE = true := by
  induction n with
  | zero => exact .inl nofun
  | succ n ih =>
    have hsplit : ∀ P : ℕ → Prop, (∀ i < n, P i) → P n → ∀ i < n+1, P i := by
      intro P hP hn i hi
      rcases Nat.lt_succ_iff_lt_or_eq.mp hi with hi | rfl
      · exact hP i hi
      · exact hn
    cases hrun : runs n with
    | nil =>
      refine ih.imp (fun hempty => hsplit _ hempty hrun) ?_
      rintro ⟨i,hi,x,rest,hhead,hleast⟩
      refine ⟨i,by omega,x,rest,hhead,hsplit _ hleast fun y hy => ?_⟩
      rw [hrun] at hy
      cases hy
    | cons y ys =>
      refine .inr ?_
      have hself : ∀ z ∈ (runs n).head?, (compare (key y) (key z)).isLE = true := by
        intro z hz
        rw [hrun] at hz
        obtain rfl := Option.some.inj hz
        rw [ReflOrd.compare_self]
        rfl
      rcases ih with hempty | ⟨i,hi,x,rest,hhead,hleast⟩
      · refine ⟨n,by omega,y,ys,hrun,hsplit _ (fun j hj z hz => ?_) hself⟩
        rw [hempty j hj] at hz
        cases hz
      · by_cases hxy : (compare (key x) (key y)).isLE = true
        · refine ⟨i,by omega,x,rest,hhead,hsplit _ hleast fun z hz => ?_⟩
          exact TransCmp.isLE_trans hxy (hself z hz)
        · have hyx : (compare (key y) (key x)).isLE = true := by
            have hswap : compare (key y) (key x) = (compare (key x) (key y)).swap := OrientedCmp.eq_swap
            rw [hswap]
            cases hc : compare (key x) (key y) with
            | gt => rfl
            | lt | eq => simp [hc] at hxy
          refine ⟨n,by omega,y,ys,hrun,hsplit _ (fun j hj z hz => ?_) hself⟩
          exact TransCmp.isLE_trans hyx (hleast j hj z hz)

/-- Runs whose keys all differ can be merged. -/
theorem exists_emits {runs : ℕ → List α} {n : ℕ} (hn : ∀ i, n ≤ i → runs i = [])
    (hdistinct : ∀ i j, i ≠ j → ∀ x ∈ runs i, ∀ y ∈ runs j, compare (key x) (key y) ≠ .eq) :
    ∃ out, Emits key runs out := by
  induction htotal : ∑ i ∈ Finset.range n, (runs i).length using Nat.strong_induction_on generalizing runs with
  | _ total ih =>
    rcases @exists_least α β _ key _ runs n with hempty | ⟨i,hi,x,rest,hhead,hleast⟩
    · refine ⟨[],.done fun i => ?_⟩
      rcases Nat.lt_or_ge i n with hi | hi
      · exact hempty i hi
      · exact hn i hi
    · have hsub : ∀ j, ∀ y ∈ Function.update runs i rest j, y ∈ runs j := by
        intro j y hy
        by_cases hj : j = i
        · rw [hj,update_self] at hy
          rw [hj,hhead]
          exact mem_cons_of_mem x hy
        · rwa [update_of_ne hj] at hy
      have hless : ∑ j ∈ Finset.range n, (Function.update runs i rest j).length<total := by
        rw [← htotal]
        refine Finset.sum_lt_sum (fun j _ => ?_) ⟨i,Finset.mem_range.mpr hi,?_⟩
        · by_cases hj : j = i
          · rw [hj,update_self,hhead]
            exact Nat.le_succ _
          · rw [update_of_ne hj]
        · rw [update_self,hhead]
          exact Nat.lt_succ_self _
      obtain ⟨out,hout⟩ := ih _ hless (fun j hj => by rw [update_of_ne (by omega)]; exact hn j hj)
        (fun j k hjk y hy z hz => hdistinct j k hjk y (hsub j y hy) z (hsub k z hz)) rfl
      refine ⟨x::out,.take i hhead ?_ hout⟩
      intro j hj y hy
      have hmem : y ∈ runs j := mem_of_mem_head? hy
      have hlt : j<n := by
        by_contra hge
        rw [hn j (Nat.le_of_not_lt hge)] at hmem
        cases hmem
      have hne := hdistinct i j hj.symm x (by rw [hhead]; exact mem_cons_self) y hmem
      have hle := hleast j hlt y hy
      cases hc : compare (key x) (key y) with
      | lt => rfl
      | eq => exact absurd hc hne
      | gt => simp [hc] at hle

lemma flatMap_range (f : List α → List γ) (layers : List (List α)) :
    (range layers.length).flatMap (fun i => f (layers[i]?.getD [])) = layers.flatMap f := by
  have hlayers : (range layers.length).map (fun i => layers[i]?.getD []) = layers := by
    apply ext_getElem
    · simp
    · intro i h₁ h₂
      simp [h₂]
  rw [← flatMap_map (fun i => layers[i]?.getD []) f,hlayers]

/-- Taking the least head sorts by the largest keys so far. -/
theorem Emits.eq_surfacing {layers : List (List α)} {out : List α}
    (h : Emits key (fun i => layers[i]?.getD []) out) : out = surfacing key layers := by
  have hmap : ∀ i : ℕ, (marks key none 0 (layers[i]?.getD [])).map Mark.item = layers[i]?.getD [] :=
    fun i => map_item_marks none 0 _
  obtain ⟨marked,rfl,hmarked⟩ := h.lift Mark.item hmap
  have hfirst : ∀ i : ℕ, ∀ a ∈ (marks key none 0 (layers[i]?.getD [])).head?, a.surface = key a.item := by
    intro i a ha
    cases hrun : layers[i]?.getD [] with
    | nil =>
      rw [hrun] at ha
      cases ha
    | cons x xs =>
      rw [hrun] at ha
      obtain rfl := Option.some.inj ha
      rfl
  have hlt := hmarked.pairwise (p := 0) (m := none)
    ⟨fun i => rising_marks none 0 _,hfirst 0,fun j _ a ha => ⟨hfirst j a ha,nofun⟩⟩
  have hperm := hmarked.perm (n := layers.length) fun i hi => by
    rw [getElem?_eq_none hi]
    rfl
  rw [flatMap_range (marks key none 0)] at hperm
  have hsorted : marked.Perm ((layers.flatMap (marks key none 0)).insertionSort Mark.Le) :=
    hperm.trans (perm_insertionSort Mark.Le _).symm
  congr 1
  refine hsorted.eq_of_pairwise ?_ (hlt.imp fun hab => by rw [Mark.Le,hab]; rfl)
    (pairwise_insertionSort Mark.Le _)
  -- marks that were taken are all different
  have hgt : ∀ {a b : Mark α β}, a.cmp b = .lt → ¬b.Le a := by
    intro a b hab hba
    rw [Mark.Le,OrientedCmp.gt_of_lt hab] at hba
    cases hba
  have hdiffer : ∀ a ∈ marked, ∀ b ∈ marked, a.Le b → b.Le a → a = b := by
    intro a ha b hb
    refine Pairwise.forall_of_forall_of_flip (R := fun a b => a.Le b → b.Le a → a = b)
      (fun _ _ _ _ => rfl) ?_ ?_ ha hb
    · exact hlt.imp fun hab _ hba => absurd hba (hgt hab)
    · exact hlt.imp fun hab hba _ => absurd hba (hgt hab)
  exact fun a b ha hb => hdiffer a ha b (hsorted.mem_iff.mpr hb)

end Sorted
end TitanKV.HeadMerge
