import TitanKV.Minikv.MergingIterator

/-! Whole iterations of a `MergingIterator`. Every key of the children comes up; whether it comes up once
and in the order of `InternalKeyCompare` depends on how that order and the order of the bytes compare. -/
namespace TitanKV.Minikv
open List Function Std

/-- The order of keys that are long enough for a trailer. -/
def trailerCompare (a b : Bytes) : Ordering :=
  (compare (internalKeyUserKey a) (internalKeyUserKey b)).then
    ((compare (internalKeyTrailer b >>> 8) (internalKeyTrailer a >>> 8)).then
      (compare (internalKeyTrailer a % 2^8) (internalKeyTrailer b % 2^8)))

instance : TransCmp trailerCompare :=
  inferInstanceAs (TransCmp (compareLex (compareOn internalKeyUserKey)
    (compareLex (fun a b => compareOn (fun k => internalKeyTrailer k >>> 8) b a)
      (compareOn fun k => internalKeyTrailer k % 2^8))))

lemma trailerCompare_irrefl (k : Bytes) : trailerCompare k k ≠ .lt := by
  have hself : trailerCompare k k = .eq := ReflCmp.compare_self
  rw [hself]
  exact nofun

lemma internalKeyCompare_eq {a b : Bytes} (ha : 8≤a.length) (hb : 8≤b.length) :
    internalKeyCompare a b = trailerCompare a b := by
  rw [internalKeyCompare,if_neg (by omega)]
  rfl

lemma eq_of_trailerCompare {a b : Bytes} (ha : 8≤a.length) (hb : 8≤b.length)
    (h : trailerCompare a b = .eq) : a = b := by
  obtain ⟨huser,h⟩ := Ordering.then_eq_eq.mp h
  obtain ⟨hseq,htype⟩ := Ordering.then_eq_eq.mp h
  have huser' := LawfulEqOrd.eq_of_compare huser
  have hseq' := LawfulEqOrd.eq_of_compare hseq
  have htype' := LawfulEqOrd.eq_of_compare htype
  have htrailer : internalKeyTrailer a = internalKeyTrailer b := by
    omega
  rw [internalKeyUserKey,if_neg (by omega),internalKeyUserKey,if_neg (by omega)] at huser'
  rw [← take_append_drop (a.length-8) a,← take_append_drop (b.length-8) b,huser']
  congr 1
  have hlength : ∀ k : Bytes, 8≤k.length → (k.drop (k.length-8)).length = 8 := by
    intro k hk
    rw [length_drop]
    omega
  apply LittleEndian.eq_of_value_eq ((hlength a ha).trans (hlength b hb).symm)
  rw [internalKeyTrailer,decodeFixed64,take_of_length_le (hlength a ha).le,internalKeyTrailer,decodeFixed64,
    take_of_length_le (hlength b hb).le] at htrailer
  exact htrailer

namespace MergingIterator
variable {Q : Heap} {it : MergingIterator Q}

/-- The iterator between two calls: the child on top of the heap is the current one. -/
structure Ready (it : MergingIterator Q) : Prop where
  loaded : it.Loaded
  current : it.current = (Q.top it.heap).map HeapItem.childIndex

/-- The keys that come up until the iterator is not valid any more. -/
inductive Produces : MergingIterator Q → List Bytes → Prop
  | done {it : MergingIterator Q} (stop : it.valid = false) : Produces it []
  | step {it : MergingIterator Q} {keys : List Bytes} (go : it.valid = true) (next : Produces it.next keys) :
    Produces it (it.key::keys)

/-- The entries that come up until the iterator is not valid any more. -/
inductive Presents : MergingIterator Q → List KeyValue → Prop
  | done {it : MergingIterator Q} (stop : it.valid = false) : Presents it []
  | step {it : MergingIterator Q} {es : List KeyValue} (go : it.valid = true) (next : Presents it.next es) :
    Presents it ((it.key,it.value)::es)

lemma Presents.produces {es : List KeyValue} (h : it.Presents es) : it.Produces (es.map Prod.fst) := by
  induction h with
  | done hstop => exact .done hstop
  | step hgo _ ih => exact .step hgo ih

lemma Loaded.le_of_top (h : it.Loaded) {item : HeapItem} (htop : Q.top it.heap = some item) {j : ℕ}
    {y : KeyValue} {ys : List KeyValue} (hj : it.rests j = y::ys) : compare item.key y.1 ≠ .gt :=
  Q.le_of_top _ _ htop ⟨j,y.1⟩ ((h.items _).mpr ⟨y,ys,hj,rfl⟩)

/-- The loop of `next` only takes entries with the current key. -/
lemma Loaded.rests_skip (h : it.Loaded) (cur : Bytes) (fuel : ℕ) :
    (MergingIterator.skip cur fuel it).remaining ≤ it.remaining ∧
      ∀ j, ∃ dropped, it.rests j = dropped ++ (MergingIterator.skip cur fuel it).rests j ∧ ∀ e ∈ dropped,
        e.1 = cur := by
  have hkept := @skip_invariant Q it (fun it' => it'.Loaded ∧ it'.remaining ≤ it.remaining ∧
    ∀ j, ∃ dropped, it.rests j = dropped ++ it'.rests j ∧ ∀ e ∈ dropped, e.1 = cur) cur ?_
    ⟨h,le_rfl,fun _ => ⟨[],rfl,nofun⟩⟩ fuel
  · exact hkept.2
  rintro it' item ⟨h',hle,hdropped⟩ htop hkey
  obtain ⟨x,xs,hx,hitem,hrests,hremaining,hloaded⟩ := h'.advance htop
  refine ⟨hloaded,by omega,fun j => ?_⟩
  obtain ⟨dropped,hsplit,hall⟩ := hdropped j
  rw [hrests]
  by_cases hj : j = item.childIndex
  · refine ⟨dropped++[x],?_,?_⟩
    · rw [hsplit,hj,hx,update_self,append_assoc]
      rfl
    · intro e he
      rcases mem_append.mp he with he | he
      · exact hall e he
      · rw [mem_singleton.mp he,← hitem,hkey]
  · rw [update_of_ne hj]
    exact ⟨dropped,hsplit,hall⟩

/-- What a call of `next` does. -/
structure Stepped (it : MergingIterator Q) (i : ℕ) (x : KeyValue) (xs : List KeyValue) : Prop where
  top : Q.top it.heap = some ⟨i,x.1⟩
  head : it.rests i = x::xs
  valid : it.valid = true
  key : it.key = x.1
  loop : it.next = (MergingIterator.skip x.1 it.remaining it).settle
  next : it.next = (MergingIterator.skip x.1 (it.advance i).remaining (it.advance i)).settle
  ready : it.next.Ready
  fewer : it.next.remaining < it.remaining
  dropped : ∀ j, ∃ dropped, it.rests j = dropped ++ it.next.rests j ∧ ∀ e ∈ dropped, e.1 = x.1

lemma Ready.valid_of_top_none (h : it.Ready) (htop : Q.top it.heap = none) : it.valid = false := by
  rw [valid,h.current,htop]
  simp

theorem Ready.stepped (h : it.Ready) {item : HeapItem} (htop : Q.top it.heap = some item) :
    ∃ x xs, Stepped it item.childIndex x xs := by
  obtain ⟨i,k⟩ := item
  obtain ⟨x,xs,hhead,rfl⟩ := h.loaded.isHead_of_top htop
  obtain ⟨-,hremaining,hloaded⟩ := h.loaded.advance_at htop hhead
  have hcurrent : it.current = some i := by rw [h.current,htop]; rfl
  obtain ⟨hvalid,hkey,-⟩ := h.loaded.at_current hcurrent hhead
  have hskip : MergingIterator.skip x.1 it.remaining it =
      MergingIterator.skip x.1 (it.advance i).remaining (it.advance i) := by
    rw [← hremaining,MergingIterator.skip,htop]
    exact if_pos rfl
  have hloop : it.next = (MergingIterator.skip x.1 it.remaining it).settle := by rw [next,if_pos hvalid,hkey]
  have hnext : it.next = (MergingIterator.skip x.1 (it.advance i).remaining (it.advance i)).settle := by
    rw [hloop,hskip]
  have hafter := hloaded.loaded_skip x.1 (it.advance i).remaining
  refine ⟨x,xs,htop,hhead,hvalid,hkey,hloop,hnext,?_,?_,?_⟩
  · rw [hnext]
    exact ⟨{ hafter with },rfl⟩
  · have hle := (hloaded.rests_skip x.1 (it.advance i).remaining).1
    rw [hnext]
    change (MergingIterator.skip x.1 (it.advance i).remaining (it.advance i)).remaining < it.remaining
    omega
  · intro j
    rw [hnext]
    have hdropped := (h.loaded.rests_skip x.1 it.remaining).2 j
    rwa [hskip] at hdropped

lemma Ready.exists_stepped (h : it.Ready) (hgo : it.valid = true) : ∃ i x xs, Stepped it i x xs := by
  cases htop : Q.top it.heap with
  | none =>
    rw [h.valid_of_top_none htop] at hgo
    cases hgo
  | some item => exact ⟨item.childIndex,h.stepped htop⟩

/-- An iteration always ends, and every key of the children comes up in it. -/
theorem Ready.exists_presents (h : it.Ready) : ∃ es, it.Presents es := by
  induction hn : it.remaining using Nat.strong_induction_on generalizing it with
  | _ n ih =>
    cases htop : Q.top it.heap with
    | none => exact ⟨[],.done (h.valid_of_top_none htop)⟩
    | some item =>
      obtain ⟨x,xs,hstep⟩ := h.stepped htop
      obtain ⟨es,hes⟩ := ih _ (hn ▸ hstep.fewer) hstep.ready rfl
      exact ⟨_,.step hstep.valid hes⟩

lemma Yields.presents {out : List KeyValue} (h : it.Yields out) : it.Presents out := by
  induction out generalizing it with
  | nil => exact .done h.valid_nil
  | cons x out ih =>
    obtain ⟨hvalid,hkey,hvalue,-,hnext⟩ := h.cons
    have hentry : (it.key,it.value) = x := Prod.ext hkey hvalue
    exact hentry ▸ .step hvalid (ih hnext)

lemma Ready.exists_produces (h : it.Ready) : ∃ keys, it.Produces keys :=
  h.exists_presents.elim fun _ hes => ⟨_,hes.produces⟩

/-- The fuel of loops over an iterator is enough. -/
lemma Presents.length_le_of_ready {es : List KeyValue} (h : it.Presents es) (hready : it.Ready) :
    es.length ≤ it.remaining := by
  induction h with
  | done => exact Nat.zero_le _
  | @step it es hgo hnext ih =>
    obtain ⟨i,x,xs,hstep⟩ := hready.exists_stepped hgo
    have hle := ih hstep.ready
    have hfewer := hstep.fewer
    rw [length_cons]
    omega

lemma ready_seekToFirst (hstatus : it.status.ok = true)
    (hchildren : ∀ c ∈ it.children, c.status.ok = true) : it.seekToFirst.Ready :=
  ⟨(loaded_moved hstatus hchildren (f := SnapshotIterator.seekToFirst) fun _ => rfl).1,rfl⟩

theorem Produces.mem_iff {keys : List Bytes} (hp : it.Produces keys) (h : it.Ready) {k : Bytes} :
    k ∈ keys ↔ ∃ j, ∃ e ∈ it.rests j, e.1 = k := by
  induction hp with
  | @done it hstop =>
    cases htop : Q.top it.heap with
    | none => simp [h.loaded.rests_of_top_none htop]
    | some item =>
      obtain ⟨x,xs,hstep⟩ := h.stepped htop
      rw [hstep.valid] at hstop
      cases hstop
  | @step it keys hgo hnext ih =>
    obtain ⟨i,x,xs,hstep⟩ := h.exists_stepped hgo
    rw [mem_cons,ih hstep.ready,hstep.key]
    constructor
    · rintro (rfl | ⟨j,e,he,rfl⟩)
      · exact ⟨_,x,by rw [hstep.head]; exact mem_cons_self,rfl⟩
      · obtain ⟨dropped,hdropped,-⟩ := hstep.dropped j
        exact ⟨j,e,by rw [hdropped]; exact mem_append_right _ he,rfl⟩
    · rintro ⟨j,e,he,rfl⟩
      obtain ⟨dropped,hdropped,hall⟩ := hstep.dropped j
      rw [hdropped] at he
      rcases mem_append.mp he with he | he
      · exact .inl (hall e he)
      · exact .inr ⟨j,e,he,rfl⟩

/-- Every child yields internal keys in increasing order. -/
structure Ascends (rests : ℕ → List KeyValue) : Prop where
  long : ∀ j, ∀ e ∈ rests j, 8≤e.1.length
  sorted : ∀ j, (rests j).Pairwise fun a b => trailerCompare a.1 b.1 = .lt

/-- For every key of a child, the first key of another one above it has a larger encoding. -/
def InStep (rests : ℕ → List KeyValue) : Prop :=
  ∀ i j, i ≠ j → ∀ e ∈ rests j, ∀ h ∈ (rests i).find? (fun h => trailerCompare e.1 h.1 = .lt),
    compare e.1 h.1 = .lt

variable {rests rests' : ℕ → List KeyValue}

lemma Ascends.of_suffix (h : Ascends rests)
    (hsuffix : ∀ j, ∃ dropped, rests j = dropped ++ rests' j) : Ascends rests' := by
  refine ⟨?_,?_⟩
  · intro j e he
    obtain ⟨dropped,hdropped⟩ := hsuffix j
    exact h.long j e (by rw [hdropped]; exact mem_append_right _ he)
  · intro j
    obtain ⟨dropped,hdropped⟩ := hsuffix j
    have hsorted := h.sorted j
    rw [hdropped] at hsorted
    exact (pairwise_append.mp hsorted).2.1

lemma find?_above {dropped rest : List KeyValue} {k : Bytes}
    (h : ∀ d ∈ dropped, trailerCompare k d.1 ≠ .lt) :
    (dropped++rest).find? (fun h => trailerCompare k h.1 = .lt) =
      rest.find? fun h => trailerCompare k h.1 = .lt := by
  rw [find?_append,find?_eq_none.mpr fun d hd => by simpa using h d hd]
  rfl

lemma InStep.of_suffix (h : InStep rests) {cur : Bytes}
    (hsuffix : ∀ j, ∃ dropped, rests j = dropped ++ rests' j ∧ ∀ d ∈ dropped, d.1 = cur)
    (hleast : ∀ j, ∀ e ∈ rests j, trailerCompare e.1 cur ≠ .lt) : InStep rests' := by
  intro i j hij e he x hx
  obtain ⟨dropped,hdropped,-⟩ := hsuffix j
  obtain ⟨dropped',hdropped',hcur⟩ := hsuffix i
  have hmem : e ∈ rests j := by rw [hdropped]; exact mem_append_right _ he
  apply h i j hij e hmem
  rw [hdropped',find?_above]
  · exact hx
  · intro d hd
    rw [hcur d hd]
    exact hleast j e hmem

section Sorted
variable (h : it.Ready) (hs : Ascends it.rests)
include h hs

variable {xs : List KeyValue} {x : KeyValue}

/-- If the children are in step, the key on top is the least. -/
lemma Ready.least (hin : InStep it.rests) {i : ℕ} (hstep : Stepped it i x xs)
    (j : ℕ) {e : KeyValue} (he : e ∈ it.rests j) : trailerCompare e.1 x.1 ≠ .lt := by
  intro hlt
  cases hj : it.rests j with
  | nil =>
    rw [hj] at he
    cases he
  | cons y ys =>
    have hsorted := hs.sorted j
    rw [hj] at he hsorted
    have hyx : trailerCompare y.1 x.1 = .lt := by
      rcases mem_cons.mp he with rfl | he
      · exact hlt
      · exact TransCmp.lt_trans ((pairwise_cons.mp hsorted).1 e he) hlt
    by_cases hij : i = j
    · rw [← hij,hstep.head] at hj
      rw [(cons.inj hj).1] at hyx
      exact trailerCompare_irrefl _ hyx
    · have hfirst : x ∈ (it.rests i).find? fun h => trailerCompare y.1 h.1 = .lt := by
        rw [hstep.head,find?_cons_of_pos (by simpa using hyx)]
        rfl
      have hraw := hin i j hij y (by rw [hj]; exact mem_cons_self) x hfirst
      exact h.loaded.le_of_top hstep.top hj (OrientedCmp.gt_of_lt hraw)

omit h hs in
/-- The loop takes the key from every child, as long as nothing with a smaller encoding comes up behind it. -/
lemma Loaded.skip_clears (hloaded : it.Loaded) {cur : Bytes} {fuel : ℕ} (hfuel : it.remaining≤fuel)
    (hinv : ∀ j y ys, it.rests j = y::ys → compare cur y.1 ≠ .gt ∧
      (y.1 = cur → ∀ z zs, ys = z::zs → compare cur z.1 = .lt)) :
    ∀ j y ys, (MergingIterator.skip cur fuel it).rests j = y::ys → y.1 ≠ cur := by
  intro j y ys hj heq
  obtain ⟨hend,hinv'⟩ := @skip_invariant Q it (fun it => it.Loaded ∧ ∀ j y ys, it.rests j = y::ys →
    compare cur y.1 ≠ .gt ∧ (y.1 = cur → ∀ z zs, ys = z::zs → compare cur z.1 = .lt)) cur (by
      rintro it item ⟨hloaded,hinv⟩ htop hkey
      obtain ⟨x,xs,hx,hitem,hrests,-,hadvanced⟩ := hloaded.advance htop
      refine ⟨hadvanced,fun j y ys hj => ?_⟩
      rw [hrests] at hj
      by_cases hji : j = item.childIndex
      · rw [hji,update_self] at hj
        have hlt := (hinv _ x xs hx).2 (hitem.symm.trans hkey) y ys hj
        exact ⟨by rw [hlt]; decide,fun heq => absurd heq.symm (ne_of_compare_lt hlt)⟩
      · rw [update_of_ne hji] at hj
        exact hinv j y ys hj) ⟨hloaded,hinv⟩ fuel
  cases htop : Q.top (MergingIterator.skip cur fuel it).heap with
  | none =>
    rw [hend.rests_of_top_none htop] at hj
    cases hj
  | some item =>
    have hle := hend.le_of_top htop hj
    obtain ⟨x,xs,hx,hitem⟩ := hend.isHead_of_top htop
    have hge := (hinv' _ x xs hx).1
    rw [heq] at hle
    rw [← hitem] at hge
    apply hloaded.skip cur hfuel item htop
    cases hc : compare item.key cur with
    | eq => exact LawfulEqOrd.eq_of_compare hc
    | gt => exact absurd hc hle
    | lt => exact absurd (OrientedCmp.gt_of_lt hc) hge

omit hs in
lemma Ready.rests_next {i : ℕ} (hstep : Stepped it i x xs) :
    ∃ dropped, xs = dropped ++ it.next.rests i := by
  obtain ⟨hrests,-,hloaded⟩ := h.loaded.advance_at hstep.top hstep.head
  obtain ⟨dropped,hdropped,-⟩ := (hloaded.rests_skip x.1 (it.advance i).remaining).2 i
  rw [hrests,update_self] at hdropped
  rw [hstep.next]
  exact ⟨dropped,hdropped⟩

/-- If the children are in step, `next` takes the current key from all of them. -/
lemma Ready.cleared (hin : InStep it.rests) {i : ℕ} (hstep : Stepped it i x xs)
    (j : ℕ) {e : KeyValue} (he : e ∈ it.next.rests j) : trailerCompare x.1 e.1 = .lt := by
  have hsortedi := hs.sorted i
  rw [hstep.head] at hsortedi
  by_cases hij : j = i
  · obtain ⟨dropped,hxs⟩ := h.rests_next hstep
    refine (pairwise_cons.mp hsortedi).1 e ?_
    rw [hxs,← hij]
    exact mem_append_right _ he
  obtain ⟨dropped,hdropped,-⟩ := hstep.dropped j
  have hmem : e ∈ it.rests j := by rw [hdropped]; exact mem_append_right _ he
  have hx : x ∈ it.rests i := by rw [hstep.head]; exact mem_cons_self
  cases hc : trailerCompare x.1 e.1 with
  | lt => rfl
  | gt => exact absurd (OrientedCmp.lt_of_gt hc) (h.least hs hin hstep j hmem)
  | eq =>
    -- two children have the key: what follows it in either has a larger encoding
    have hkey : x.1 = e.1 := eq_of_trailerCompare (hs.long i x hx) (hs.long j e hmem) hc
    have hother : ∀ l, ∃ l' ≠ l, ∃ d ∈ it.rests l', d.1 = x.1 := by
      intro l
      by_cases hl : l = i
      · exact ⟨j,fun heq => hij (heq.trans hl),e,hmem,hkey.symm⟩
      · exact ⟨i,Ne.symm hl,x,hx,rfl⟩
    have hclear : ∀ j y ys, (MergingIterator.skip x.1 it.remaining it).rests j = y::ys → y.1 ≠ x.1 := by
      refine h.loaded.skip_clears le_rfl fun l y ys hy => ⟨h.loaded.le_of_top hstep.top hy,?_⟩
      rintro hyx z zs rfl
      obtain ⟨l',hl',d,hd,hdx⟩ := hother l
      have hsorted := hs.sorted l
      rw [hy] at hsorted
      have hyz := (pairwise_cons.mp hsorted).1 z mem_cons_self
      rw [hyx,← hdx] at hyz
      rw [← hdx]
      refine hin l l' hl'.symm d hd z ?_
      rw [hy,find?_cons_of_neg,find?_cons_of_pos (by simpa using hyz)]
      · rfl
      · rw [hyx,← hdx]
        simpa using trailerCompare_irrefl d.1
    have hnext : it.next.rests j = (MergingIterator.skip x.1 it.remaining it).rests j := by rw [hstep.loop]; rfl
    rw [hnext] at he hdropped
    cases hj : (MergingIterator.skip x.1 it.remaining it).rests j with
    | nil =>
      rw [hj] at he
      cases he
    | cons y ys =>
      rw [hj] at he
      rcases mem_cons.mp he with rfl | htail
      · exact absurd hkey.symm (hclear j e ys hj)
      · have hsorted := hs.sorted j
        rw [hdropped,hj] at hsorted
        have hlt := (pairwise_cons.mp (pairwise_append.mp hsorted).2.1).1 e htail
        rw [← hkey] at hlt
        refine absurd hlt (h.least hs hin hstep j ?_)
        rw [hdropped,hj]
        exact mem_append_right _ mem_cons_self

end Sorted

/-- Children that are in step are merged in the order of `InternalKeyCompare`. -/
theorem Produces.pairwise {keys : List Bytes} (hp : it.Produces keys) (h : it.Ready) (hs : Ascends it.rests)
    (hin : InStep it.rests) : keys.Pairwise fun a b => trailerCompare a b = .lt := by
  induction hp with
  | done => exact Pairwise.nil
  | @step it keys hgo hnext ih =>
    obtain ⟨i,x,xs,hstep⟩ := h.exists_stepped hgo
    have hsuffix : ∀ j, ∃ dropped, it.rests j = dropped ++ it.next.rests j :=
      fun j => (hstep.dropped j).imp fun _ hd => hd.1
    refine pairwise_cons.mpr ⟨?_,ih hstep.ready (hs.of_suffix hsuffix) ?_⟩
    · intro k hk
      obtain ⟨j,e,he,rfl⟩ := (hnext.mem_iff hstep.ready).mp hk
      rw [hstep.key]
      exact h.cleared hs hin hstep j he
    · exact hin.of_suffix hstep.dropped fun j e he => h.least hs hin hstep j he

end MergingIterator

/-- A finer order of the items: of those with one key, the item of child `i` comes first. -/
def HeapItem.Prefers (i : ℕ) (a b : HeapItem) : Prop :=
  compare a.key b.key = .lt ∨ a.key = b.key ∧ (a.childIndex = i ∨ b.childIndex ≠ i)

namespace HeapItem
variable (i : ℕ)

instance : DecidableRel (Prefers i) := fun _ _ => inferInstanceAs (Decidable (_ ∨ _))

instance : IsTrans HeapItem (Prefers i) where
  trans a b c := by
    rintro (hab | ⟨hab,hi⟩) (hbc | ⟨hbc,hj⟩)
    · exact .inl (TransCmp.lt_trans hab hbc)
    · exact .inl (hbc ▸ hab)
    · exact .inl (hab ▸ hbc)
    · refine .inr ⟨hab.trans hbc,?_⟩
      rcases hi with hi | hi
      · exact .inl hi
      · exact .inr (hj.resolve_left hi)

instance : Std.Total (Prefers i) where
  total a b := by
    cases hc : compare a.key b.key with
    | lt => exact .inl (.inl hc)
    | gt => exact .inr (.inl (OrientedCmp.lt_of_gt hc))
    | eq =>
      have hkey : a.key = b.key := LawfulEqOrd.eq_of_compare hc
      by_cases hb : b.childIndex = i
      · exact .inr (.inr ⟨hkey.symm,.inl hb⟩)
      · exact .inl (.inr ⟨hkey,.inr hb⟩)

lemma Prefers.le {a b : HeapItem} (h : Prefers i a b) : a.Le b := by
  rcases h with h | ⟨h,-⟩
  · rw [Le,h]
    decide
  · rw [Le,h,ReflOrd.compare_self]
    decide

end HeapItem

/-- A heap that breaks ties in favour of one child. -/
def preferring (i : ℕ) : Heap := (PriorityQueue.sorted (HeapItem.Prefers i)).coarsen fun _ _ => HeapItem.Prefers.le i

lemma preferring_top {i : ℕ} {q : (preferring i).Carrier} {a b : HeapItem} (htop : (preferring i).top q = some a)
    (hb : b ∈ (preferring i).items q) : HeapItem.Prefers i a b :=
  (PriorityQueue.sorted (HeapItem.Prefers i)).le_of_top q a htop b hb

namespace MergingIterator

/-- `next` takes a key from another child only if the first child has nothing with a smaller encoding behind it. -/
lemma Ready.compare_of_dropped {Q : Heap} {it : MergingIterator Q} (h : it.Ready) {i j : ℕ} (hij : i ≠ j)
    {y z : KeyValue} {zs : List KeyValue} (hstep : Stepped it i y (z::zs)) (hyz : trailerCompare y.1 z.1 = .lt)
    {e : KeyValue} (he : e ∈ it.rests j) (hleft : e ∉ it.next.rests j) : compare y.1 z.1 = .lt := by
  cases hc : compare y.1 z.1 with
  | lt => rfl
  | eq =>
    rw [LawfulEqOrd.eq_of_compare hc] at hyz
    exact absurd hyz (trailerCompare_irrefl _)
  | gt =>
    -- the loop ends before it comes to the other child
    obtain ⟨hrests,-,hloaded⟩ := h.loaded.advance_at hstep.top hstep.head
    have hzrest : (it.advance i).rests i = z::zs := by rw [hrests,update_self]
    have hstop : ∀ item, Q.top (it.advance i).heap = some item → item.key ≠ y.1 := by
      intro item htop heq
      have hle := hloaded.le_of_top htop hzrest
      rw [heq] at hle
      exact hle hc
    have hsame : it.next.rests j = it.rests j := by
      rw [hstep.next,skip_of_ne hstop]
      change (it.advance i).rests j = it.rests j
      rw [hrests,update_of_ne hij.symm]
    rw [hsame] at hleft
    exact absurd he hleft

/-- An iteration in order shows that the children are in step, if ties go to the child that is asked about. -/
theorem Produces.inStep {i j : ℕ} (hij : i ≠ j) {it : MergingIterator (preferring i)} {keys : List Bytes}
    (hp : it.Produces keys) (h : it.Ready) (hs : Ascends it.rests)
    (hkeys : keys.Pairwise fun a b => trailerCompare a b = .lt) {e x : KeyValue} (he : e ∈ it.rests j)
    (hx : x ∈ (it.rests i).find? fun h => trailerCompare e.1 h.1 = .lt) : compare e.1 x.1 = .lt := by
  induction hp with
  | @done it hstop =>
    have hmem := ((Produces.done hstop).mem_iff h).mpr ⟨j,e,he,rfl⟩
    cases hmem
  | @step it keys hgo hnext ih =>
    obtain ⟨k,y,ys,hstep⟩ := h.exists_stepped hgo
    obtain ⟨hlater,hrest⟩ := pairwise_cons.mp hkeys
    rw [hstep.key] at hlater
    have habove : ∀ l, ∀ d ∈ it.next.rests l, trailerCompare y.1 d.1 = .lt :=
      fun l d hd => hlater d.1 ((hnext.mem_iff hstep.ready).mpr ⟨l,d,hd,rfl⟩)
    have hsuffix : ∀ l, ∃ dropped, it.rests l = dropped ++ it.next.rests l :=
      fun l => (hstep.dropped l).imp fun _ hd => hd.1
    by_cases hleft : e ∈ it.next.rests j
    · obtain ⟨dropped,hdropped,hcur⟩ := hstep.dropped i
      refine ih hstep.ready (hs.of_suffix hsuffix) hrest hleft ?_
      rw [hdropped,find?_above] at hx
      · exact hx
      · intro d hd hlt
        rw [hcur d hd] at hlt
        exact trailerCompare_irrefl _ (TransCmp.lt_trans hlt (habove j e hleft))
    -- the key of `e` is the current one
    obtain ⟨dropped,hdropped,hcur⟩ := hstep.dropped j
    have hey : e.1 = y.1 := by
      rw [hdropped] at he
      exact hcur e ((mem_append.mp he).resolve_right hleft)
    have hright : ∀ w ws, it.rests i = w::ws → w.1 ≠ y.1 → x = w := by
      intro w ws hw hne
      obtain ⟨dropped',hdropped',hcur'⟩ := hstep.dropped i
      have hwlater : w ∈ it.next.rests i := by
        have hwmem : w ∈ it.rests i := by rw [hw]; exact mem_cons_self
        rw [hdropped'] at hwmem
        exact (mem_append.mp hwmem).resolve_left fun hd => hne (hcur' w hd)
      rw [hw,hey,find?_cons_of_pos (by simpa using habove i w hwlater)] at hx
      exact (Option.some.inj hx).symm
    by_cases hitem : k = i
    · rw [hitem] at hstep
      have hsorted := hs.sorted i
      rw [hstep.head] at hsorted hx
      rw [hey,find?_cons_of_neg (by simpa using trailerCompare_irrefl y.1)] at hx
      cases hys : ys with
      | nil =>
        rw [hys] at hx
        cases hx
      | cons z zs =>
        have hyz := (pairwise_cons.mp hsorted).1 z (by rw [hys]; exact mem_cons_self)
        rw [hys,find?_cons_of_pos (by simpa using hyz)] at hx
        obtain rfl := Option.some.inj hx
        rw [hys] at hstep
        rw [hey]
        exact h.compare_of_dropped hij hstep hyz he hleft
    · cases hi : it.rests i with
      | nil =>
        rw [hi] at hx
        cases hx
      | cons w ws =>
        have hw := (h.loaded.items ⟨i,w.1⟩).mpr ⟨w,ws,hi,rfl⟩
        rcases preferring_top hstep.top hw with hlt | ⟨-,hfirst | hfirst⟩
        · rw [hright w ws hi (ne_of_compare_lt hlt).symm,hey]
          exact hlt
        · exact absurd hfirst hitem
        · exact absurd rfl hfirst

lemma Produces.unique {Q : Heap} {it : MergingIterator Q} {keys keys' : List Bytes} (h : it.Produces keys)
    (h' : it.Produces keys') : keys = keys' := by
  induction h generalizing keys' with
  | done hstop =>
    cases h' with
    | done => rfl
    | step hgo => rw [hstop] at hgo; cases hgo
  | step hgo _ ih =>
    cases h' with
    | done hstop => rw [hstop] at hgo; cases hgo
    | step _ hnext => rw [ih hnext]

def sought {Q : Heap} (it : MergingIterator Q) : Option Bytes → MergingIterator Q
  | none => it.seekToFirst
  | some target => it.seek target

def entriesFrom (target : Option Bytes) (c : SnapshotIterator) : List KeyValue :=
  match target with
  | none => c.entries
  | some target => c.entries.dropWhile fun e => internalKeyCompare e.1 target = .lt

def restsFrom (target : Option Bytes) (children : List SnapshotIterator) (i : ℕ) : List KeyValue :=
  (children.map (entriesFrom target))[i]?.getD []

lemma restsFrom_eq (target : Option Bytes) (children : List SnapshotIterator) (i : ℕ) :
    restsFrom target children i = (children[i]?.map (entriesFrom target)).getD [] := by
  rw [restsFrom,getElem?_map]

/-- The iteration produces the distinct keys of the children that are not below the target, in order. -/
def MergesSorted (Q : Heap) (children : List SnapshotIterator) (target : Option Bytes) : Prop :=
  ∃ keys, ((ofChildren Q children).sought target).Produces keys ∧
    keys.Pairwise (fun a b => internalKeyCompare a b = .lt) ∧
    ∀ k, k ∈ keys ↔ (∃ c ∈ children, ∃ e ∈ c.entries, e.1 = k) ∧ ∀ t ∈ target, internalKeyCompare k t ≠ .lt

/-- For every key of `b`, the first key of `a` above it has a larger encoding. -/
def Leads (a b : List KeyValue) : Prop :=
  ∀ e ∈ b, ∀ h ∈ a.find? (fun h => internalKeyCompare e.1 h.1 = .lt), compare e.1 h.1 = .lt

instance (a b : List KeyValue) : Decidable (Leads a b) := inferInstanceAs (Decidable (∀ _ ∈ _, _))

section Sought
variable {children : List SnapshotIterator} (hok : ∀ c ∈ children, c.status.ok = true) (target : Option Bytes)
include hok

lemma ready_sought (Q : Heap) : ((ofChildren Q children).sought target).Ready ∧
    ((ofChildren Q children).sought target).rests = restsFrom target children := by
  have hstatus : (ofChildren Q children).status.ok = true := by
    rw [ofChildren,childStatus_eq_ok hok]
    rfl
  have hmoved : ∀ f : SnapshotIterator → SnapshotIterator, (∀ c, (f c).status = c.status) →
      (∀ c ∈ children, (f c).rest = entriesFrom target c) →
      let it := { ofChildren Q children with children := children.map f }.rebuildHeap
      it.Ready ∧ it.rests = restsFrom target children := by
    intro f hkeeps hrest it
    obtain ⟨hloaded,hrests⟩ := @loaded_moved Q (ofChildren Q children) hstatus hok f hkeeps
    refine ⟨⟨hloaded,rfl⟩,funext fun i => ?_⟩
    rw [restsFrom_eq]
    refine (hrests i).trans ?_
    change (children[i]?.map fun c => (f c).rest).getD [] = _
    cases hc : children[i]? with
    | none => rfl
    | some c => exact hrest c (mem_of_getElem? hc)
  cases target with
  | none => exact hmoved SnapshotIterator.seekToFirst (fun _ => rfl) fun c hc => c.rest_seekToFirst (hok c hc)
  | some t =>
    refine hmoved (fun c => c.seek t) (fun _ => rfl) ?_
    intro c hc
    have hc' : (c.seek t).status.ok = true := hok c hc
    rw [SnapshotIterator.rest,if_pos hc']
    have hsplit := takeWhile_append_dropWhile (p := fun e : KeyValue => internalKeyCompare e.1 t = .lt)
      (l := c.entries)
    calc (c.seek t).entries.drop (c.seek t).index
        = ((c.entries.takeWhile fun e => internalKeyCompare e.1 t = .lt) ++
            c.entries.dropWhile fun e => internalKeyCompare e.1 t = .lt).drop (c.seek t).index := by rw [hsplit]; rfl
      _ = entriesFrom (some t) c := drop_left

end Sought

/-- Child iterators that yield their entries in increasing order. -/
structure Yielding (children : List SnapshotIterator) : Prop where
  ok : ∀ c ∈ children, c.status.ok = true
  long : ∀ c ∈ children, ∀ e ∈ c.entries, 8≤e.1.length
  sorted : ∀ c ∈ children, c.entries.Pairwise fun a b => internalKeyCompare a.1 b.1 = .lt

section Merged
variable {children : List SnapshotIterator} (h : Yielding children) (target : Option Bytes)
include h

lemma Yielding.ascends : Ascends (restsFrom target children) := by
  have hsub : ∀ c, (entriesFrom target c).Sublist c.entries := by
    intro c
    cases target with
    | none => exact Sublist.refl _
    | some t => exact dropWhile_sublist _
  have hlong : ∀ i, ∀ e ∈ restsFrom target children i, 8≤e.1.length := by
    intro i e he
    rw [restsFrom_eq] at he
    cases hc : children[i]? with
    | none => rw [hc] at he; cases he
    | some c =>
      rw [hc] at he
      exact h.long c (mem_of_getElem? hc) e ((hsub c).subset he)
  refine ⟨hlong,?_⟩
  intro i
  have hlongi := hlong i
  rw [restsFrom_eq] at hlongi ⊢
  cases hc : children[i]? with
  | none => exact Pairwise.nil
  | some c =>
    rw [hc] at hlongi
    refine ((h.sorted c (mem_of_getElem? hc)).sublist (hsub c)).imp_of_mem ?_
    intro a b ha hb hab
    rwa [internalKeyCompare_eq (hlongi a ha) (hlongi b hb)] at hab

lemma Yielding.mem_entriesFrom (ht : ∀ t ∈ target, 8≤t.length) {c : SnapshotIterator} (hc : c ∈ children)
    (e : KeyValue) :
    e ∈ entriesFrom target c ↔ e ∈ c.entries ∧ ∀ t ∈ target, internalKeyCompare e.1 t ≠ .lt := by
  cases target with
  | none => simp [entriesFrom]
  | some t =>
    have hlong := h.long c hc
    have hsorted := h.sorted c hc
    have ht := ht t rfl
    have hfrom : ∀ x : KeyValue, (∀ t' ∈ some t, internalKeyCompare x.1 t' ≠ .lt) ↔ internalKeyCompare x.1 t ≠ .lt :=
      fun x => ⟨fun hx => hx t rfl,fun hx t' ht' => by rwa [← Option.some.inj ht']⟩
    rw [hfrom]
    change e ∈ c.entries.dropWhile (fun e => internalKeyCompare e.1 t = .lt) ↔ _
    generalize c.entries = entries at hlong hsorted ⊢
    induction entries with
    | nil => simp
    | cons x xs ih =>
      obtain ⟨hx,hxs⟩ := pairwise_cons.mp hsorted
      have ih := ih (fun e he => hlong e (mem_cons_of_mem _ he)) hxs
      by_cases hlt : internalKeyCompare x.1 t = .lt
      · rw [dropWhile_cons_of_pos (by simpa using hlt),ih,mem_cons]
        constructor
        · exact fun he => ⟨.inr he.1,he.2⟩
        · rintro ⟨rfl | he,hne⟩
          · exact absurd hlt hne
          · exact ⟨he,hne⟩
      · rw [dropWhile_cons_of_neg (by simpa using hlt)]
        refine ⟨fun he => ⟨he,?_⟩,And.left⟩
        rcases mem_cons.mp he with rfl | he'
        · exact hlt
        · intro hbelow
          have hex := hx e he'
          have hlx := hlong x mem_cons_self
          have hle := hlong e (mem_cons_of_mem _ he')
          rw [internalKeyCompare_eq hlx hle] at hex
          rw [internalKeyCompare_eq hle ht] at hbelow
          rw [internalKeyCompare_eq hlx ht] at hlt
          exact hlt (TransCmp.lt_trans hex hbelow)

/-- The children are in step if each leads every other one. -/
lemma Yielding.inStep_iff : InStep (restsFrom target children) ↔
    (children.map (entriesFrom target)).Pairwise fun a b => Leads a b ∧ Leads b a := by
  have hasc := h.ascends target
  have hleads : ∀ i j, Leads (restsFrom target children i) (restsFrom target children j) ↔
      ∀ e ∈ restsFrom target children j,
        ∀ x ∈ (restsFrom target children i).find? (fun x => trailerCompare e.1 x.1 = .lt),
        compare e.1 x.1 = .lt := by
    intro i j
    refine forall₂_congr fun e he => ?_
    have hsame : ∀ x ∈ restsFrom target children i,
        decide (internalKeyCompare e.1 x.1 = .lt) = decide (trailerCompare e.1 x.1 = .lt) := by
      intro x hx
      rw [internalKeyCompare_eq (hasc.long j e he) (hasc.long i x hx)]
    rw [find?_congr hsame]
  have hget : ∀ i (hi : i<(children.map (entriesFrom target)).length),
      restsFrom target children i = (children.map (entriesFrom target))[i] := by
    intro i hi
    rw [restsFrom,getElem?_eq_getElem hi]
    rfl
  rw [pairwise_iff_getElem]
  constructor
  · intro hin i j hi hj hij
    rw [← hget i hi,← hget j hj]
    exact ⟨(hleads i j).mpr (hin i j (by omega)),(hleads j i).mpr (hin j i (by omega))⟩
  · intro hpair i j hij
    refine (hleads i j).mp ?_
    have hin : ∀ l, ∀ d ∈ restsFrom target children l, l<(children.map (entriesFrom target)).length := by
      intro l d hd
      by_contra hout
      rw [restsFrom,getElem?_eq_none (by omega)] at hd
      cases hd
    intro e he x hx
    have hi := hin i x (mem_of_find?_eq_some hx)
    have hj := hin j e he
    rw [hget i hi] at hx
    rw [hget j hj] at he
    rcases lt_or_gt_of_ne hij with hlt | hlt
    · exact (hpair i j hi hj hlt).1 e he x hx
    · exact (hpair j i hj hi hlt).2 e he x hx

end Merged

/-- Merging sorts the keys, whichever way the heap breaks its ties, if and only if the children lead each other: the
    heap compares the encodings, in which the sequence number stands with its least byte first and nothing separates
    the user key from it. -/
theorem mergesSorted_iff_leads {children : List SnapshotIterator} (h : Yielding children) (target : Option Bytes)
    (ht : ∀ t ∈ target, 8≤t.length) :
    (∀ Q, MergesSorted Q children target) ↔
      (children.map (entriesFrom target)).Pairwise fun a b => Leads a b ∧ Leads b a := by
  have hasc := h.ascends target
  rw [← h.inStep_iff target]
  have hready := ready_sought h.ok target
  have hlong : ∀ {Q : Heap} {keys : List Bytes}, ((ofChildren Q children).sought target).Produces keys →
      ∀ k ∈ keys, 8≤k.length := by
    intro Q keys hp k hk
    obtain ⟨j,e,he,rfl⟩ := (hp.mem_iff (hready Q).1).mp hk
    rw [(hready Q).2] at he
    exact hasc.long j e he
  constructor
  · intro hall i j hij e he x hx
    obtain ⟨keys,hp,hsorted,-⟩ := hall (preferring i)
    rw [← (hready (preferring i)).2] at he hx
    refine hp.inStep hij (hready _).1 ((hready _).2 ▸ hasc) (hsorted.imp_of_mem ?_) he hx
    intro a b ha hb hab
    rwa [internalKeyCompare_eq (hlong hp a ha) (hlong hp b hb)] at hab
  · intro hin Q
    obtain ⟨keys,hp⟩ := (hready Q).1.exists_produces
    refine ⟨keys,hp,?_,?_⟩
    · refine (hp.pairwise (hready Q).1 ((hready Q).2 ▸ hasc) ((hready Q).2 ▸ hin)).imp_of_mem ?_
      intro a b ha hb hab
      rwa [internalKeyCompare_eq (hlong hp a ha) (hlong hp b hb)]
    · intro k
      rw [hp.mem_iff (hready Q).1,(hready Q).2]
      constructor
      · rintro ⟨j,e,he,rfl⟩
        rw [restsFrom_eq] at he
        cases hc : children[j]? with
        | none => rw [hc] at he; cases he
        | some c =>
          rw [hc] at he
          have hmem := mem_of_getElem? hc
          obtain ⟨hentry,hnot⟩ := (h.mem_entriesFrom target ht hmem e).mp he
          exact ⟨⟨c,hmem,e,hentry,rfl⟩,hnot⟩
      · rintro ⟨⟨c,hc,e,he,rfl⟩,hnot⟩
        obtain ⟨j,hj⟩ := mem_iff_getElem?.mp hc
        refine ⟨j,e,?_,rfl⟩
        rw [restsFrom_eq,hj]
        exact (h.mem_entriesFrom target ht hc e).mpr ⟨he,hnot⟩

def childOf (keys : List InternalKey) : SnapshotIterator := ⟨keys.map fun k => (k.encode,[]),0,.Ok⟩

/-- Two user keys of one length, in two children. -/
theorem mergesSorted_of_two_keys :
    (Yielding [childOf [⟨[1],3,.value⟩,⟨[1],2,.value⟩],childOf [⟨[2],1,.value⟩]] ∧
      ∀ Q, MergesSorted Q [childOf [⟨[1],3,.value⟩,⟨[1],2,.value⟩],childOf [⟨[2],1,.value⟩]] none) ∧
    ∀ Q, MergesSorted Q [childOf [⟨[1],3,.value⟩,⟨[1],2,.value⟩],childOf [⟨[2],1,.value⟩]]
      (some (InternalKey.encode ⟨[1],2,.value⟩)) := by
  have h : Yielding [childOf [⟨[1],3,.value⟩,⟨[1],2,.value⟩],childOf [⟨[2],1,.value⟩]] :=
    ⟨by decide +kernel,by decide +kernel,by decide +kernel⟩
  exact ⟨⟨h,(mergesSorted_iff_leads h none nofun).mpr (by decide +kernel)⟩,
    (mergesSorted_iff_leads h (some _) (by decide +kernel)).mpr (by decide +kernel)⟩

/-- Two versions of one key in two children: the older one comes up first. -/
theorem not_mergesSorted_of_two_versions :
    Yielding [childOf [⟨[1],2,.value⟩],childOf [⟨[1],1,.value⟩]] ∧
      ¬MergesSorted sortedHeap [childOf [⟨[1],2,.value⟩],childOf [⟨[1],1,.value⟩]] none := by
  refine ⟨⟨by decide +kernel,by decide +kernel,by decide +kernel⟩,?_⟩
  rintro ⟨keys,hp,hsorted,-⟩
  have hrun : ((ofChildren sortedHeap [childOf [⟨[1],2,.value⟩],childOf [⟨[1],1,.value⟩]]).sought none).Produces
      [InternalKey.encode ⟨[1],1,.value⟩,InternalKey.encode ⟨[1],2,.value⟩] :=
    .step (by decide +kernel) (.step (by decide +kernel) (.done (by decide +kernel)))
  rw [hp.unique hrun] at hsorted
  revert hsorted
  decide +kernel
end MergingIterator
end TitanKV.Minikv
