import TitanKV.Minikv.ReadFailures

/-! Looking up a key in a table that was built without a failing call. `get` goes to the first
block whose last key is not below the one sought; the newest entry of the key stands there, also
where the versions of the key are spread over several blocks. -/
namespace TitanKV.Minikv
open List SSTableBuilder Store

section LowerBound
variable {α : Type} {less : α → Bool} {l : List α} {n : ℕ}

/-- The interval that is searched keeps the place `n` that splits the list. -/
lemma lowerBoundFrom_eq (hless : ∀ i a, l[i]? = some a → (less a = true ↔ i<n)) (fuel first len : ℕ)
    (hfirst : first≤n) (hn : n≤first+len) (hlen : first+len≤l.length) (hfuel : len≤fuel) :
    lowerBoundFrom less l fuel first len = n := by
  induction fuel generalizing first len with
  | zero =>
    rw [lowerBoundFrom]
    omega
  | succ fuel ih =>
    rw [lowerBoundFrom]
    split
    · omega
    · rename_i hpos
      have hmid : first+len/2 < l.length := by omega
      have hget := getElem?_eq_getElem hmid
      have hside := hless _ _ hget
      rw [hget]
      dsimp only
      split
      · rename_i hl
        have hbelow := hside.mp hl
        exact ih _ _ (by omega) (by omega) (by omega) (by omega)
      · rename_i hl
        have habove : ¬ first+len/2 < n := fun hlt => hl (hside.mpr hlt)
        exact ih _ _ hfirst (by omega) (by omega) (by omega)

/-- In a list that begins with the elements that are less, `std::lower_bound` finds the first that
is not. -/
theorem getElem?_lowerBound (h : l.Pairwise fun a b => less b = true → less a = true) :
    l[lowerBound less l]? = l.find? fun a => !less a := by
  have hless : ∀ i a, l[i]? = some a → (less a = true ↔ i < l.findIdx fun a => !less a) := by
    intro i a hget
    obtain ⟨hi,rfl⟩ := List.getElem?_eq_some_iff.mp hget
    constructor
    · intro hl
      by_contra hle
      have hfound : (l.findIdx fun a => !less a)<l.length := by omega
      have hnot := findIdx_getElem (w := hfound)
      rcases Nat.lt_or_eq_of_le (not_lt.mp hle) with hlt | heq
      · have hbefore := pairwise_iff_getElem.mp h _ _ hfound hi hlt hl
        simp [hbefore] at hnot
      · simp only [heq] at hnot
        simp [hl] at hnot
    · intro hlt
      simpa using not_of_lt_findIdx hlt
  have heq : lowerBound less l = l.findIdx fun a => !less a := by
    apply lowerBoundFrom_eq hless
    · exact Nat.zero_le _
    · rw [Nat.zero_add]
      exact findIdx_le_length
    · rw [Nat.zero_add]
    · exact le_rfl
  rw [heq]
  exact find?_eq_getElem?_findIdx.symm

end LowerBound

def UserKeysAscend (es : List KeyValue) : Prop :=
  es.Pairwise fun a b => compare (internalKeyUserKey a.1) (internalKeyUserKey b.1) ≠ .gt

lemma compare_lt_of_le_of_lt {a b c : Bytes} (hab : compare a b ≠ .gt) (hbc : compare b c = .lt) :
    compare a c = .lt :=
  Std.TransCmp.lt_of_isLE_of_lt (Ordering.isLE_iff_ne_gt.mpr hab) hbc

section Lookup
variable {userKey : Bytes} {es more : List KeyValue}

lemma lookupKeyValue_append_of_lt (h : ∀ e ∈ es, compare (internalKeyUserKey e.1) userKey = .lt) :
    lookupKeyValue userKey (es++more) = lookupKeyValue userKey more := by
  induction es with
  | nil => rfl
  | cons e es ih =>
    rw [cons_append,lookupKeyValue,h e (by simp)]
    exact ih fun e' he => h e' (by simp [he])

lemma lookupKeyValue_append_of_not_lt {e : KeyValue} (he : e ∈ es)
    (h : compare (internalKeyUserKey e.1) userKey ≠ .lt) :
    lookupKeyValue userKey (es++more) = lookupKeyValue userKey es := by
  induction es with
  | nil => simp at he
  | cons e' es ih =>
    rw [cons_append,lookupKeyValue,lookupKeyValue]
    cases hc : compare (internalKeyUserKey e'.1) userKey with
    | eq | gt => rfl
    | lt =>
      rcases mem_cons.mp he with rfl | he
      · exact (h hc).elim
      · exact ih he

lemma lookupKeyValue_of_absent (h : ∀ e ∈ es, internalKeyUserKey e.1 ≠ userKey) :
    lookupKeyValue userKey es = none := by
  induction es with
  | nil => rfl
  | cons e es ih =>
    rw [lookupKeyValue]
    cases hc : compare (internalKeyUserKey e.1) userKey with
    | eq => exact (h e (by simp) (Std.LawfulEqOrd.eq_of_compare hc)).elim
    | gt => rfl
    | lt => exact ih fun e' he => h e' (by simp [he])

end Lookup

section Placed
variable {blocks : List PlacedBlock} {userKey : Bytes}

def belowKey (userKey : Bytes) (e : IndexEntry) : Bool :=
  compare (internalKeyUserKey e.lastKey) userKey = .lt

lemma pairwise_belowKey (hends : ∀ x ∈ blocks, EndsWithLastKey x) (hsorted : UserKeysAscend (placedEntries blocks)) :
    (blocks.map Prod.snd).Pairwise fun a b => belowKey userKey b = true → belowKey userKey a = true := by
  rw [pairwise_map]
  refine (pairwise_flatMap.mp hsorted).2.imp_of_mem ?_
  intro x y hx hy hxy hbelow
  obtain ⟨frontx,ex,hentriesx,hlastx⟩ := hends x hx
  obtain ⟨fronty,ey,hentriesy,hlasty⟩ := hends y hy
  have hle := hxy ex (by simp [hentriesx]) ey (by simp [hentriesy])
  simp only [belowKey,hlastx,hlasty,decide_eq_true_eq] at hbelow ⊢
  exact compare_lt_of_le_of_lt hle hbelow

lemma lookupKeyValue_placed (hends : ∀ x ∈ blocks, EndsWithLastKey x)
    (hsorted : UserKeysAscend (placedEntries blocks)) :
    lookupKeyValue userKey (placedEntries blocks) =
      (blocks.find? fun x => !belowKey userKey x.2).bind fun x => lookupKeyValue userKey x.1 := by
  induction blocks with
  | nil => rfl
  | cons x blocks ih =>
    obtain ⟨front,e,hentries,hlast⟩ := hends x (by simp)
    have hcons : placedEntries (x::blocks) = x.1++placedEntries blocks := rfl
    rw [hcons] at hsorted ⊢
    obtain ⟨hfirst,hrest,-⟩ := pairwise_append.mp hsorted
    cases hbelow : belowKey userKey x.2 with
    | true =>
      have hall : ∀ e' ∈ x.1, compare (internalKeyUserKey e'.1) userKey = .lt := by
        intro e' he'
        simp only [belowKey,hlast,decide_eq_true_eq] at hbelow
        rw [hentries] at he' hfirst
        rcases mem_append.mp he' with hfront | hlast'
        · exact compare_lt_of_le_of_lt ((pairwise_append.mp hfirst).2.2 e' hfront e (by simp)) hbelow
        · rwa [mem_singleton.mp hlast']
      rw [lookupKeyValue_append_of_lt hall,ih (fun y hy => hends y (by simp [hy])) hrest]
      simp [hbelow]
    | false =>
      have hstop : compare (internalKeyUserKey e.1) userKey ≠ .lt := by
        simpa [belowKey,hlast] using hbelow
      rw [lookupKeyValue_append_of_not_lt (by simp [hentries]) hstop]
      simp [hbelow]

section Over
variable {codec : Codec} {r : SSTableReader} (h : r.Over codec blocks)
include h

theorem SSTableReader.Over.get {bloom : Option BloomFilter} (hsorted : UserKeysAscend (placedEntries blocks))
    (hbloom : ∀ e ∈ placedEntries blocks, ∀ f ∈ bloom, f.mightContain (internalKeyUserKey e.1) = true) :
    r.get codec bloom (fun _ => false) userKey = lookupKeyValue userKey (placedEntries blocks) := by
  obtain ⟨content,pos,hfile,hstored⟩ := h.stored
  have hblock : r.blockFor userKey =
      (blocks.find? fun x => !belowKey userKey x.2).map fun x => x.2.handle := by
    have hfound := getElem?_lowerBound (@pairwise_belowKey _ userKey h.ends hsorted)
    rw [SSTableReader.blockFor,h.index]
    exact (congrArg (Option.map IndexEntry.handle) hfound).trans (by
      rw [find?_map,Option.map_map]
      rfl)
  have hlookup := @lookupKeyValue_placed _ userKey h.ends hsorted
  rw [SSTableReader.get,hblock]
  split
  · rename_i hempty
    rw [h.index,List.isEmpty_iff,List.map_eq_nil_iff] at hempty
    rw [hempty]
    rfl
  · split
    · rename_i hfilter
      symm
      apply lookupKeyValue_of_absent
      rintro e he rfl
      cases bloom with
      | none => cases hfilter
      | some f => simp [hbloom e he f rfl] at hfilter
    · rw [hlookup]
      cases hfound : blocks.find? fun x => !belowKey userKey x.2 with
      | none => rfl
      | some x =>
        obtain ⟨raw,hraw,hentries⟩ := hstored x (mem_of_find?_eq_some hfound)
        obtain ⟨pos',hread⟩ := hraw.readBlock pos
        simp only [Option.map_some,Option.bind_some,hfile,hread,Bool.false_eq_true,if_false,getByUserKey,hentries]

end Over
end Placed

/-- The entry of a user key with the highest sequence number; of entries with the same one, the
one with the smaller type comes first. -/
def Newest (es : List KeyValue) (userKey : Bytes) (e : KeyValue) : Prop :=
  e ∈ es ∧ internalKeyUserKey e.1 = userKey ∧ ∀ e' ∈ es, internalKeyUserKey e'.1 = userKey → e' = e ∨
    internalKeySequence e'.1 < internalKeySequence e.1 ∨
      internalKeySequence e'.1 = internalKeySequence e.1 ∧ internalKeyType e.1 < internalKeyType e'.1

/-- What a table with these entries is to answer: the value of the newest entry of the key, and
nothing exactly if there is none or it is a deletion. -/
def AnswersExactly (es : List KeyValue) (userKey : Bytes) (result : Option Bytes) : Prop :=
  (∀ v, result = some v ↔ ∃ e, Newest es userKey e ∧ internalKeyType e.1 ≠ ValueType.deletion.code ∧ e.2 = v) ∧
    (result = none ↔ (∀ e ∈ es, internalKeyUserKey e.1 ≠ userKey) ∨
      ∃ e, Newest es userKey e ∧ internalKeyType e.1 = ValueType.deletion.code)

section Order
variable {a b : Bytes} {es : List KeyValue} {userKey : Bytes}

lemma userKey_le_of_lt (ha : 8≤a.length) (hb : 8≤b.length) (h : internalKeyCompare a b = .lt) :
    compare (internalKeyUserKey a) (internalKeyUserKey b) ≠ .gt := by
  intro hgt
  rw [internalKeyCompare,if_neg (by omega),hgt] at h
  cases h

/-- Of two entries of one key, the newer one comes first. -/
lemma newer_of_lt (ha : 8≤a.length) (hb : 8≤b.length) (h : internalKeyCompare a b = .lt)
    (hsame : internalKeyUserKey a = internalKeyUserKey b) : internalKeySequence b < internalKeySequence a ∨
      internalKeySequence b = internalKeySequence a ∧ internalKeyType a < internalKeyType b := by
  rw [internalKeyCompare,if_neg (by omega),hsame,Std.ReflOrd.compare_self,Ordering.then_eq_lt] at h
  simp only [internalKeySequence,internalKeyType,if_neg (not_lt.mpr ha),if_neg (not_lt.mpr hb)]
  rcases h with h | ⟨-,h⟩
  · cases h
  · rcases Ordering.then_eq_lt.mp h with h | ⟨heq,h⟩
    · exact .inl (Nat.compare_eq_lt.mp h)
    · exact .inr ⟨Nat.compare_eq_eq.mp heq,Nat.compare_eq_lt.mp h⟩

lemma Newest.unique {e e' : KeyValue} (h : Newest es userKey e) (h' : Newest es userKey e') : e = e' := by
  rcases h.2.2 e' h'.1 h'.2.1 with heq | hold
  · exact heq.symm
  · rcases h'.2.2 e h.1 h.2.1 with heq | hold'
    · exact heq
    · omega

lemma lookupKeyValue_newest (hsorted : es.Pairwise fun a b => internalKeyCompare a.1 b.1 = .lt)
    (hkeys : ∀ e ∈ es, 8≤e.1.length) :
    (∀ e ∈ es, internalKeyUserKey e.1 ≠ userKey) ∨ ∃ e, Newest es userKey e ∧ lookupKeyValue userKey es =
      if internalKeyType e.1 = ValueType.deletion.code then none else some e.2 := by
  induction es with
  | nil => exact .inl (by simp)
  | cons e es ih =>
    obtain ⟨hfirst,hrest⟩ := pairwise_cons.mp hsorted
    have hkey := hkeys e (by simp)
    have hkeys' : ∀ e' ∈ es, 8≤e'.1.length := fun e' he' => hkeys e' (by simp [he'])
    rw [lookupKeyValue]
    cases hc : compare (internalKeyUserKey e.1) userKey with
    | eq =>
      have hsame := Std.LawfulEqOrd.eq_of_compare hc
      refine .inr ⟨e,⟨by simp,hsame,?_⟩,rfl⟩
      intro e' he' hsame'
      rcases mem_cons.mp he' with rfl | he'
      · exact .inl rfl
      · exact .inr (newer_of_lt hkey (hkeys' e' he') (hfirst e' he') (hsame.trans hsame'.symm))
    | gt =>
      -- every later key is behind the one sought as well
      left
      rintro e' he' rfl
      rcases mem_cons.mp he' with rfl | he'
      · rw [Std.ReflOrd.compare_self] at hc
        cases hc
      · exact userKey_le_of_lt hkey (hkeys' e' he') (hfirst e' he') hc
    | lt =>
      have hother : internalKeyUserKey e.1 ≠ userKey := by
        rintro rfl
        rw [Std.ReflOrd.compare_self] at hc
        cases hc
      rcases ih hrest hkeys' with habsent | ⟨e₁,⟨hmem,hsame,hnewest⟩,hlookup⟩
      · left
        intro e' he'
        rcases mem_cons.mp he' with rfl | he'
        · exact hother
        · exact habsent e' he'
      · refine .inr ⟨e₁,⟨by simp [hmem],hsame,?_⟩,hlookup⟩
        intro e' he' hsame'
        rcases mem_cons.mp he' with rfl | he'
        · exact (hother hsame').elim
        · exact hnewest e' he' hsame'

theorem answersExactly_lookupKeyValue (hsorted : es.Pairwise fun a b => internalKeyCompare a.1 b.1 = .lt)
    (hkeys : ∀ e ∈ es, 8≤e.1.length) : AnswersExactly es userKey (lookupKeyValue userKey es) := by
  rcases lookupKeyValue_newest hsorted hkeys with habsent | ⟨e,hnewest,hlookup⟩
  · rw [lookupKeyValue_of_absent habsent]
    refine ⟨fun v => ⟨fun h => (by cases h),?_⟩,⟨fun _ => .inl habsent,fun _ => rfl⟩⟩
    rintro ⟨e,⟨hmem,hsame,-⟩,-⟩
    exact (habsent e hmem hsame).elim
  · rw [hlookup]
    constructor
    · intro v
      constructor
      · intro h
        split at h
        · cases h
        · rename_i htype
          exact ⟨e,hnewest,htype,Option.some.inj h⟩
      · rintro ⟨e',hnewest',htype,rfl⟩
        rw [hnewest.unique hnewest',if_neg htype]
    · constructor
      · intro h
        split at h
        · rename_i htype
          exact .inr ⟨e,hnewest,htype⟩
        · cases h
      · rintro (habsent | ⟨e',hnewest',htype⟩)
        · exact (habsent e hnewest.1 hnewest.2.1).elim
        · rw [hnewest.unique hnewest',if_pos htype]

end Order

/-- A table of ordered entries that was built without a failing call is opened, is scanned entry by
entry and answers every lookup exactly. -/
theorem SSTableReader.lookup_exact (codec : Codec) (blockSize : ℕ) (compression : CompressionType)
    {outcomes : List WriteOutcome} (hfull : ∀ o ∈ outcomes, o = .full) {es : List KeyValue}
    (hsorted : es.Pairwise fun a b => internalKeyCompare a.1 b.1 = .lt) (hkeys : ∀ e ∈ es, 8≤e.1.length)
    (hsizes : SizesBelow (2^31) blockSize es) {stack : Bytes} (hstack : stack.length = 16) :
    (((init blockSize compression true outcomes).addAll codec es).finish codec).1 = .Ok ∧
      ∃ r, openFile true (some (((init blockSize compression true outcomes).addAll codec
          es).finish codec).2.file.content) [] = some r ∧ r.scan codec [] [] = (.Ok,es) ∧
        ∀ userKey, AnswersExactly es userKey
          (r.get codec (some (.load stack (bloomOf es).persist)) (fun _ => false) userKey) := by
  obtain ⟨hstatus,r,hopen,hover,hentries⟩ := exists_over codec blockSize compression hfull
    (hsizes.mono (by norm_num))
  have hascend : UserKeysAscend es := hsorted.imp_of_mem fun ha hb h => userKey_le_of_lt (hkeys _ ha) (hkeys _ hb) h
  refine ⟨hstatus,r,hopen,hentries ▸ hover.scan,?_⟩
  intro userKey
  have hget := @SSTableReader.Over.get _ userKey _ _ hover (some (.load stack (bloomOf es).persist))
  rw [hentries] at hget
  rw [hget hascend fun e he f hf => Option.mem_some.mp hf ▸ mightContain_bloomOf he hstack]
  exact answersExactly_lookupKeyValue hsorted hkeys

def straddlingEntries : List KeyValue :=
  [((⟨[107],3,.deletion⟩ : InternalKey).encode,[]),((⟨[107],2,.value⟩ : InternalKey).encode,[118]),
    ((⟨[107],1,.value⟩ : InternalKey).encode,[117]),((⟨[108],4,.value⟩ : InternalKey).encode,[119])]

theorem SSTableReader.lookup_exact_straddling : (dataBlocks 1 .init straddlingEntries).length = 4 ∧
    (((init 1 .snappy true []).addAll markingCodec straddlingEntries).finish
      markingCodec).1 = .Ok ∧
      ∃ r, openFile true (some (((init 1 .snappy true []).addAll markingCodec
          straddlingEntries).finish markingCodec).2.file.content) [] = some r ∧
        r.scan markingCodec [] [] = (.Ok,straddlingEntries) ∧
        ∀ userKey, AnswersExactly straddlingEntries userKey (r.get markingCodec
          (some (.load (List.replicate 16 0) (bloomOf straddlingEntries).persist)) (fun _ => false) userKey) :=
  ⟨by decide +kernel,lookup_exact markingCodec 1 .snappy (by simp) (by decide +kernel) (by decide +kernel)
    (.of_totalSize (by decide +kernel) 1) (by decide)⟩

end TitanKV.Minikv
