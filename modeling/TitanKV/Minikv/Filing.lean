import TitanKV.Library.Recency
import TitanKV.Minikv.Chronicle

/-! The tables and WAL files of the chronicle, key by key: which version a merge takes, where the tables
are that hold a key, and which operations are not known to be in a table yet. -/
namespace TitanKV.Minikv
open List Disk

section Choice

/-- What the merge goes by among versions of one key: the sequence number, then the kind of entry. -/
def Entry.rank (e : Entry) : ℕ := 3*e.key.seq+(2-e.key.type.code)

lemma Entry.le_iff_rank {a b : Entry} (h : a.key.userKey = b.key.userKey) : a.Le b ↔ b.rank≤a.rank := by
  have hcode : ∀ t : ValueType, t.code≤2 := by
    intro t
    cases t <;> decide
  have ha := hcode a.key.type
  have hself : Ord.compare b.key.userKey b.key.userKey = .eq := Std.ReflCmp.compare_self
  rw [Entry.Le,InternalKey.compare,h,hself,rank,rank]
  rcases lt_trichotomy b.key.seq a.key.seq with hs | hs | hs
  · rw [Nat.compare_eq_lt.mpr hs]
    simp only [Ordering.then,Ordering.isLE_lt,true_iff]
    omega
  · rw [hs,Nat.compare_eq_eq.mpr rfl]
    simp only [Ordering.then,Nat.isLE_compare]
    omega
  · rw [Nat.compare_eq_gt.mpr hs]
    simp only [Ordering.then,Ordering.isLE_gt,Bool.false_eq_true,false_iff]
    omega

lemma newest_orderedInsert (x : Entry) {es : List Entry} (h : Ordered es) (k : Bytes) :
    newest (es.orderedInsert Entry.Le x) k =
      if x.key.userKey = k then
        match newest es k with
        | none => some x
        | some c => if x.rank<c.rank then some c else some x
      else newest es k := by
  induction es with
  | nil => simp [newest]
  | cons y es ih =>
    obtain ⟨hy,hes⟩ := pairwise_cons.mp h
    rw [orderedInsert_cons]
    split
    · rename_i hxy
      by_cases hx : x.key.userKey = k
      · have hfirst : newest (x::y::es) k = some x := by simp [newest,hx]
        rw [hfirst,if_pos hx]
        cases hc : newest (y::es) k with
        | none => rfl
        | some c =>
          have hxc : x.Le c := by
            rcases mem_cons.mp (mem_of_find?_eq_some hc) with rfl | hmem
            · exact hxy
            · exact IsTrans.trans _ _ _ hxy (hy c hmem)
          have hrank := (Entry.le_iff_rank (hx.trans (userKey_of_newest hc).symm)).mp hxc
          dsimp only
          rw [if_neg (by omega)]
      · simp [newest,hx]
    · rename_i hxy
      by_cases hk : y.key.userKey = k
      · have hfirst : ∀ rest, newest (y::rest) k = some y := fun rest => by simp [newest,hk]
        rw [hfirst,hfirst]
        split
        · rename_i hx
          have hrank := (not_congr (Entry.le_iff_rank (hx.trans hk.symm))).mp hxy
          dsimp only
          rw [if_pos (by omega)]
        · rfl
      · have hskip : ∀ rest, newest (y::rest) k = newest rest k := fun rest => by simp [newest,hk]
        rw [hskip,hskip]
        exact ih hes

/-- Of the versions of a key the sort puts the first of the highest rank first. -/
theorem newest_insertionSort (es : List Entry) (k : Bytes) : newest (es.insertionSort Entry.Le) k =
    (es.filter fun e => e.key.userKey = k).argmax Entry.rank := by
  induction es with
  | nil => rfl
  | cons x es ih =>
    rw [insertionSort_cons,newest_orderedInsert x (pairwise_insertionSort Entry.Le es),ih,filter_cons]
    by_cases hx : x.key.userKey = k
    · rw [if_pos hx,if_pos (by simpa using hx),argmax_cons]
      cases (es.filter fun e => e.key.userKey = k).argmax Entry.rank <;> rfl
    · rw [if_neg hx,if_neg (by simpa using hx)]

lemma argmax_entriesOf (d : Disk) (path : TablePath) (k : Bytes) :
    ((d.entriesOf path).filter fun e => e.key.userKey = k).argmax Entry.rank = newest (d.entriesOf path) k := by
  have hsorted : Ordered (d.entriesOf path) := by
    refine (d.ascending_entriesOf path).imp ?_
    intro a b hab
    rw [Entry.Le,hab]
    rfl
  rw [← newest_insertionSort,Pairwise.insertionSort_eq hsorted]

variable (d : Disk) (k : Bytes)

/-- The table holds a version of the key. -/
def Disk.Has (path : TablePath) : Bool := (newest (d.entriesOf path) k).isSome

def Disk.rank (path : TablePath) : ℕ := ((newest (d.entriesOf path) k).map Entry.rank).getD 0

def Disk.holders (paths : List TablePath) : List TablePath := paths.filter (d.Has k)

variable {d k}

lemma Disk.mem_holders {paths : List TablePath} {path : TablePath} :
    path ∈ d.holders k paths ↔ path ∈ paths ∧ d.Has k path = true := mem_filter

lemma Disk.holders_cons (path : TablePath) (rest : List TablePath) : d.holders k (path::rest) =
    if d.Has k path = true then path::d.holders k rest else d.holders k rest := filter_cons

lemma Disk.rank_eq {path : TablePath} {e : Entry} (h : newest (d.entriesOf path) k = some e) :
    d.rank k path = e.rank := by
  rw [rank,h]
  rfl

/-- The version that comes first when all sources are sorted is that of the source chosen by rank. -/
theorem newest_sortedEntries (sources : List TablePath) : newest (sortedEntries d sources) k =
    ((d.holders k sources).argmax (d.rank k)).bind fun path => newest (d.entriesOf path) k := by
  rw [sortedEntries,newest_insertionSort,sourceEntries]
  induction sources with
  | nil => rfl
  | cons path rest ih =>
    rw [flatMap_cons,filter_append,argmax_append,argmax_entriesOf,ih,holders_cons]
    cases hn : newest (d.entriesOf path) k with
    | none =>
      rw [if_neg (by simp [Has,hn])]
    | some e =>
      rw [if_pos (by simp [Has,hn]),argmax_cons]
      cases hc : (d.holders k rest).argmax (d.rank k) with
      | none =>
        dsimp only [Option.bind]
        rw [hn]
      | some c =>
        obtain ⟨x,hx⟩ := Option.isSome_iff_exists.mp (mem_holders.mp (argmax_mem hc)).2
        dsimp only [Option.bind]
        rw [hx,rank_eq hn,rank_eq hx]
        dsimp only
        split
        · exact hx.symm
        · exact hn.symm

lemma find?_of_argmax {sources : List TablePath} {c : TablePath} {e : Entry}
    (hc : c ∈ (d.holders k sources).argmax (d.rank k)) (he : newest (d.entriesOf c) k = some e) :
    sources.find? (fun path => newest (d.entriesOf path) k = some e) = some c := by
  induction sources with
  | nil => cases hc
  | cons path rest ih =>
    rw [holders_cons] at hc
    rw [find?_cons]
    cases hn : newest (d.entriesOf path) k with
    | none =>
      rw [if_neg (by simp [Has,hn])] at hc
      exact ih hc
    | some x =>
      rw [if_pos (by simp [Has,hn]),argmax_cons] at hc
      cases hb : (d.holders k rest).argmax (d.rank k) with
      | none =>
        rw [hb] at hc
        obtain rfl := Option.some.inj hc
        simp [hn.symm.trans he]
      | some b =>
        rw [hb] at hc
        dsimp only at hc
        split at hc
        · rename_i hlt
          obtain rfl := Option.some.inj hc
          have hne : ¬ some x = some e := by
            rintro hxe
            rw [rank_eq hn,rank_eq he,Option.some.inj hxe] at hlt
            exact lt_irrefl _ hlt
          rw [decide_eq_false hne]
          exact ih hb
        · obtain rfl := Option.some.inj hc
          simp [hn.symm.trans he]

end Choice

/-- Where the tables are that hold a key. Their versions are in order, and none was written after the
operations of the WAL files; only those of the oldest generation may be in a table already. -/
structure Filed (l : Ledger) (k : Bytes) (d : Disk) (files : ℕ → List TablePath) (gens : List (List ℕ)) : Prop where
  order : Recency (d.rank k) (fun path => l.ages path k) (fun path => l.outdated path k = true)
    fun i => d.holders k (files i)
  behind : ∀ i, ∀ path ∈ d.holders k (files i), Behind (l.ages path k) (gens.map (l.times k))
  clock : ∀ i, ∀ path ∈ d.holders k (files i), l.ages path k < l.clock

section Tables
variable {l l' : Ledger} {k : Bytes} {d d' : Disk} {files files' : ℕ → List TablePath} {gens gens' : List (List ℕ)}

variable {paths : List TablePath}

lemma Disk.holders_congr (h : ∀ path ∈ paths, d'.entriesOf path = d.entriesOf path) :
    d'.holders k paths = d.holders k paths := by
  apply filter_congr
  intro path hpath
  rw [Has,Has,h path hpath]

lemma Disk.holders_eq (h : d'.entriesOf = d.entriesOf) : d'.holders k = d.holders k := by
  funext paths
  exact holders_congr fun path _ => by rw [h]

lemma Disk.argmax_holders_congr (h : ∀ path ∈ paths, d'.entriesOf path = d.entriesOf path) :
    (d'.holders k paths).argmax (d'.rank k) = (d.holders k paths).argmax (d.rank k) := by
  rw [holders_congr h]
  apply argmax_congr
  intro path hp
  rw [rank,rank,h path (mem_holders.mp hp).1]

lemma Disk.holders_push (d : Disk) (k : Bytes) (n i : ℕ) (paths : List TablePath) (path : TablePath) :
    d.holders k (if n = i then paths++[path] else paths) =
      if n = i then d.holders k paths ++ d.holders k [path] else d.holders k paths := by
  split
  · exact filter_append _ _
  · rfl

lemma Filed.frame (h : Filed l k d files gens) (hfiles : ∀ i, files' i <:+ files i)
    (hentries : ∀ i, ∀ path ∈ files' i, d'.entriesOf path = d.entriesOf path)
    (hages : ∀ i, ∀ path ∈ files' i, l'.ages path k = l.ages path k)
    (hout : ∀ i, ∀ path ∈ files' i, l.outdated path k = true → l'.outdated path k = true)
    (hclock : l.clock≤l'.clock)
    (hgens : ∀ t < l.clock, Behind t (gens.map (l.times k)) → Behind t (gens'.map (l'.times k))) :
    Filed l' k d' files' gens' := by
  have hsuffix : ∀ i, d.holders k (files' i) <:+ d.holders k (files i) := fun i => (hfiles i).filter _
  have hsame : ∀ i, d'.holders k (files' i) = d.holders k (files' i) := fun i => holders_congr (hentries i)
  have hlisted : ∀ i, ∀ path ∈ d.holders k (files' i), path ∈ files' i := fun i path hp => (mem_holders.mp hp).1
  refine ⟨?_,?_,?_⟩
  · refine (h.order.drop_front hsuffix).congr hsame ?_ ?_ ?_
    · intro i path hp
      rw [rank,rank,hentries i path (hlisted i path hp)]
    · exact fun i path hp => hages i path (hlisted i path hp)
    · exact fun i path hp => hout i path (hlisted i path hp)
  · intro i path hp
    rw [hsame] at hp
    rw [hages i path (hlisted i path hp)]
    exact hgens _ (h.clock i path ((hsuffix i).subset hp)) (h.behind i path ((hsuffix i).subset hp))
  · intro i path hp
    rw [hsame] at hp
    rw [hages i path (hlisted i path hp)]
    exact (h.clock i path ((hsuffix i).subset hp)).trans_le hclock

variable {path : TablePath}

lemma Filed.push_without (h : Filed l k d files gens) {n : ℕ} (hhas : d.Has k path = false)
    (hentries : d'.entriesOf = d.entriesOf) (hfiles : ∀ i, files' i = if n = i then files i ++ [path] else files i) :
    Filed l k d' files' gens := by
  have hsame : ∀ i, d'.holders k (files' i) = d.holders k (files i) := by
    intro i
    have hnone : d.holders k [path] = [] := by simp [holders,hhas]
    rw [holders_eq hentries,hfiles,holders_push,hnone,append_nil,ite_self]
  refine ⟨?_,?_,?_⟩
  · refine h.order.congr hsame ?_ (fun _ _ _ => rfl) fun _ _ _ hp => hp
    intro i p _
    rw [rank,rank,hentries]
  · intro i p hp
    rw [hsame] at hp
    exact h.behind i p hp
  · intro i p hp
    rw [hsame] at hp
    exact h.clock i p hp

lemma Disk.holders_listed {n : ℕ} (hhas : d.Has k path = true)
    (hentries : d'.entriesOf = d.entriesOf) (hfiles : ∀ i, files' i = if n = i then files i ++ [path] else files i)
    (i : ℕ) : d'.holders k (files' i) =
      if n = i then d.holders k (files i) ++ [path] else d.holders k (files i) := by
  have hone : d.holders k [path] = [path] := by simp [holders,hhas]
  rw [holders_eq hentries,hfiles,holders_push,hone]

theorem Filed.flush {front : List ℕ} {later : List (List ℕ)} (h : Filed l k d files (front::later))
    (hentries : d'.entriesOf = d.entriesOf) (hfiles : ∀ i, files' i = if 0 = i then files i ++ [path] else files i)
    (hage : d.Has k path = true → l.ages path k ∈ (l.times k front).getLast?)
    (hsorted : ((front::later).map (l.times k)).flatten.Pairwise (· < ·))
    (hclock : ∀ u ∈ l.times k front, u<l.clock) : Filed l k d' files' (front::later) := by
  cases hhas : d.Has k path with
  | false => exact h.push_without hhas hentries hfiles
  | true =>
    have hlast := hage hhas
    have hholders := holders_listed hhas hentries hfiles
    refine ⟨?_,?_,?_⟩
    · have hpushed := h.order.push (fun i => hholders i) (fun i _ p hp => (h.behind i p hp).1 _ hlast)
        (fun i hi => absurd hi (Nat.not_lt_zero i)) (fun i hi => absurd hi (Nat.not_lt_zero i))
      refine hpushed.congr (fun _ => rfl) ?_ (fun _ _ _ => rfl) fun _ _ _ hp => hp
      intro i p _
      rw [rank,rank,hentries]
    · intro i p hp
      rw [hholders] at hp
      rcases Recency.mem_push hp with hp | ⟨-,rfl⟩
      · exact h.behind i p hp
      · exact Behind.last hsorted hlast
    · intro i p hp
      rw [hholders] at hp
      rcases Recency.mem_push hp with hp | ⟨-,rfl⟩
      · exact h.clock i p hp
      · exact hclock _ (mem_of_mem_getLast? hlast)

/-- What the merge of the oldest files of a level would choose is as new as everything deeper. -/
def Chosen (l : Ledger) (k : Bytes) (d : Disk) (files : ℕ → List TablePath) (level : ℕ)
    (sources : List TablePath) : Prop :=
  ∀ c ∈ (d.holders k sources).argmax (d.rank k), ∀ i, level < i → ∀ b ∈ d.holders k (files i),
    l.ages b k ≤ l.ages c k

lemma Chosen.frame {level : ℕ} {sources : List TablePath} (h : Chosen l k d files level sources)
    (hsources : ∀ path ∈ sources, d'.entriesOf path = d.entriesOf path ∧ l'.ages path k = l.ages path k)
    (hfiles : ∀ i, level < i → files' i = files i)
    (hdeeper : ∀ i, ∀ path ∈ files i, d'.entriesOf path = d.entriesOf path ∧ l'.ages path k = l.ages path k) :
    Chosen l' k d' files' level sources := by
  intro c hc i hi b hb
  rw [argmax_holders_congr fun path hp => (hsources path hp).1] at hc
  rw [hfiles i hi,holders_congr fun path hp => (hdeeper i path hp).1] at hb
  rw [(hdeeper i b (mem_holders.mp hb).1).2,(hsources c (mem_holders.mp (argmax_mem hc)).1).2]
  exact h c hc i hi b hb

lemma Filed.chosen (h : Filed l k d files gens) (level : ℕ) : Chosen l k d files level (files level) :=
  fun c hc i hi b hb => h.order.picked level i hi _ suffix_rfl c hc b hb

theorem Filed.publish (h : Filed l k d files gens) {level : ℕ} {sources newer : List TablePath} {newFile : TablePath}
    (hsources : files level = sources++newer) (hentries : d'.entriesOf = d.entriesOf)
    (hfiles : ∀ i, files' i = if level+1 = i then files i ++ [newFile] else files i)
    (hchosen : Chosen l k d files level sources)
    (hage : d.Has k newFile = true →
      ∃ c ∈ (d.holders k sources).argmax (d.rank k), l.ages newFile k = l.ages c k) :
    Filed (l.publish d sources newFile) k d' files' gens := by
  have hkept : ∀ p, l.outdated p k = true → (l.publish d sources newFile).outdated p k = true := by
    intro p hp
    rw [Ledger.publish]
    simp [hp]
  cases hhas : d.Has k newFile with
  | false =>
    exact (h.push_without hhas hentries hfiles).frame (fun i => suffix_rfl) (fun _ _ _ => rfl)
      (fun _ _ _ => rfl) (fun _ p _ => hkept p) le_rfl fun _ _ hb => hb
  | true =>
    obtain ⟨c,hc,hagec⟩ := hage hhas
    have hholders := holders_listed hhas hentries hfiles
    have hcn : c ∈ d.holders k (files level) := by
      obtain ⟨hc,hhasc⟩ := mem_holders.mp (argmax_mem hc)
      exact mem_holders.mpr ⟨by rw [hsources]; exact mem_append_left newer hc,hhasc⟩
    refine ⟨?_,?_,?_⟩
    · have hsplit : d.holders k (files level) = d.holders k sources ++ d.holders k newer := by
        rw [hsources]
        exact filter_append _ _
      have hmarked : ∀ p ∈ d.holders k sources, l.ages p k < l.ages newFile k →
          (l.publish d sources newFile).outdated p k = true := by
        intro p hp hlt
        obtain ⟨hp,hhasp⟩ := mem_holders.mp hp
        have hhasp' : (newest (d.entriesOf p) k).isSome = true := hhasp
        have hhas' : (newest (d.entriesOf newFile) k).isSome = true := hhas
        simp [Ledger.publish,hp,hhasp',hhas',hlt]
      refine (h.order.publish hsplit hc (hchosen c hc) hagec (fun i => hholders i) hkept hmarked).congr
        (fun _ => rfl) ?_ (fun _ _ _ => rfl) fun _ _ _ hp => hp
      intro i p _
      rw [rank,rank,hentries]
    · intro i p hp
      rw [hholders] at hp
      rcases Recency.mem_push hp with hp | ⟨-,rfl⟩
      · exact h.behind i p hp
      · change Behind (l.ages p k) _
        rw [hagec]
        exact h.behind level c hcn
    · intro i p hp
      rw [hholders] at hp
      rcases Recency.mem_push hp with hp | ⟨-,rfl⟩
      · exact h.clock i p hp
      · change l.ages p k < l.clock
        rw [hagec]
        exact h.clock level c hcn

end Tables
end TitanKV.Minikv
