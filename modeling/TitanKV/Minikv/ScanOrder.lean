import TitanKV.Minikv.Server

/-! When scans and lookups agree. A scan sees the stored entries in the order in which they surface and
takes the first of several neighbours with one user key; a lookup takes the first run whose newest
version of the key is a value. -/
namespace TitanKV.Minikv
open Server List SSTable Entry Option

/-- What the search of `get` finds. -/
def DBImpl.found (db : DBImpl) (k : Bytes) : Option Bytes :=
  db.layers.findSome? fun es => (newest es k).bind live

/-- The entries that do not follow an entry of the same user key; the empty key counts as seen. -/
abbrev frontsFrom : Bytes → List Entry → List Entry := keepNewest (fun e => e.key.userKey) fun _ => false

abbrev entriesRanged : Bytes → Bytes → List Entry → List Entry := ranged fun e => e.key.userKey

/-- A value among the fronts has a larger key than all fronts before it and is what a lookup finds, and
everything a lookup finds is among them. -/
structure Orderly (es : List Entry) (found : Bytes → Option Bytes) : Prop where
  ordered : (frontsFrom [] es).Pairwise fun x e =>
    e.key.isDeletion = false → compare x.key.userKey e.key.userKey = .lt
  shown : ∀ e ∈ frontsFrom [] es, e.key.isDeletion = false → found e.key.userKey = some e.value
  complete : ∀ k v, found k = some v → ∃ e ∈ frontsFrom [] es, e.key.userKey = k ∧ e.key.isDeletion = false

/-- The scan of a range returns what lookups find in it, in the order of the keys. -/
def Agrees (es : List Entry) (found : Bytes → Option Bytes) (start stop : Bytes) : Prop :=
  let items := (keepNewestEntries [] (entriesRanged start stop es)).map pair
  items.Pairwise (fun a b => compare a.1 b.1 = .lt) ∧
    ∀ k v, (k,v) ∈ items ↔
      compare k start ≠ .lt ∧ (stop = [] ∨ compare k stop = .lt) ∧ found k = some v

section Fronts
variable {es : List Entry} {start stop last last' k : Bytes} {e : Entry}

@[simp] theorem ranged_nil_nil (es : List Entry) : entriesRanged [] [] es = es := by
  induction es with
  | nil => rfl
  | cons e es ih =>
    rw [entriesRanged,ranged_cons,if_neg (compare_nil_ne_lt _),if_pos (.inl rfl)]
    exact congrArg _ ih

lemma fronts_ranged_sublist (hlast : compare last' start ≠ .lt → last = last') :
    (frontsFrom last (entriesRanged start stop es)).Sublist (frontsFrom last' es) := by
  induction es generalizing last last' with
  | nil => exact Sublist.slnil
  | cons x es ih =>
    have hskip : (frontsFrom x.key.userKey es).Sublist (frontsFrom last' (x::es)) := by
      rw [frontsFrom,keepNewest]
      split
      · rename_i heq
        rw [heq]
      · exact sublist_cons_self _ _
    rw [entriesRanged,ranged_cons]
    by_cases hstart : compare x.key.userKey start = .lt
    · rw [if_pos hstart]
      exact (ih fun hge => absurd hstart hge).trans hskip
    · rw [if_neg hstart]
      split
      · rw [frontsFrom,keepNewest,keepNewest]
        by_cases hseen : x.key.userKey = last'
        · rw [if_pos (hseen.trans (hlast (hseen ▸ hstart)).symm),if_pos hseen]
          exact ih hlast
        · split
          · rename_i heq
            exact (ih fun _ => heq.symm).cons x
          · exact (ih fun _ => rfl).cons_cons x
      · exact nil_sublist _

lemma mem_fronts_ranged (hlast : compare last' start ≠ .lt → last = last')
    (hbelow : compare last k = .lt) (hbelow' : compare last' k = .lt)
    (hord : (frontsFrom last' es).Pairwise fun x e =>
      e.key.isDeletion = false → compare x.key.userKey e.key.userKey = .lt)
    (he : e ∈ frontsFrom last' es) (hvalue : e.key.isDeletion = false) (hk : e.key.userKey = k)
    (hstart : compare k start ≠ .lt) (hstop : stop = [] ∨ compare k stop = .lt) :
    e ∈ frontsFrom last (entriesRanged start stop es) := by
  have hin : ∀ {y : Bytes}, compare y k = .lt → stop = [] ∨ compare y stop = .lt :=
    fun hy => hstop.imp_right fun hlt => Std.TransCmp.lt_trans hy hlt
  induction es generalizing last last' with
  | nil => exact he
  | cons x es ih =>
    rw [frontsFrom,keepNewest] at he hord
    rw [entriesRanged,ranged_cons]
    by_cases hseen : x.key.userKey = last'
    · rw [if_pos hseen] at he hord
      by_cases hlt : compare x.key.userKey start = .lt
      · rw [if_pos hlt]
        exact ih hlast hbelow hbelow' hord he
      · rw [if_neg hlt,if_pos (hin (hseen ▸ hbelow')),frontsFrom,keepNewest,
          if_pos (hseen.trans (hlast (hseen ▸ hlt)).symm)]
        exact ih hlast hbelow hbelow' hord he
    · rw [if_neg hseen,if_neg Bool.false_ne_true] at he hord
      obtain ⟨hx,hrest⟩ := pairwise_cons.mp hord
      rcases mem_cons.mp he with rfl | he
      · have hne : e.key.userKey ≠ last := by
          intro heq
          rw [hk] at heq
          rw [← heq,Std.ReflOrd.compare_self] at hbelow
          cases hbelow
        rw [hk,if_neg hstart,if_pos hstop,frontsFrom,keepNewest,if_neg hne,if_neg Bool.false_ne_true]
        exact mem_cons_self
      · have hxk : compare x.key.userKey k = .lt := hk ▸ hx e he hvalue
        by_cases hlt : compare x.key.userKey start = .lt
        · rw [if_pos hlt]
          exact ih (fun hge => absurd hlt hge) hbelow hxk hrest he
        · rw [if_neg hlt,if_pos (hin hxk),frontsFrom,keepNewest]
          split
          · rename_i heq
            exact ih (fun _ => heq.symm) hbelow hxk hrest he
          · exact mem_cons_of_mem x (ih (fun _ => rfl) hxk hxk hrest he)

lemma fronts_append (last : Bytes) {before after : List Entry} (hlast : last ≠ e.key.userKey)
    (hbefore : ∀ x ∈ before, x.key.userKey ≠ e.key.userKey) :
    ∃ rest, frontsFrom last (before ++ e::after) = frontsFrom last before ++ e::rest := by
  induction before generalizing last with
  | nil => exact ⟨frontsFrom e.key.userKey after,by simp [keepNewest,hlast.symm]⟩
  | cons x before ih =>
    have hx := hbefore x mem_cons_self
    have hrest : ∀ y ∈ before, y.key.userKey ≠ e.key.userKey := fun y hy => hbefore y (mem_cons_of_mem x hy)
    rw [cons_append,frontsFrom,keepNewest,keepNewest]
    split
    · exact ih last hlast hrest
    · obtain ⟨rest,heq⟩ := ih x.key.userKey hx hrest
      exact ⟨rest,congrArg (x::·) heq⟩

lemma compare_append_zero (k : Bytes) : compare k (k++[0]) = .lt := by
  induction k with
  | nil => rfl
  | cons b k ih => rw [cons_append,compare_cons,Std.ReflOrd.compare_self,ih]; rfl

lemma eq_of_lt_append_zero {x k : Bytes} (hge : compare x k ≠ .lt) (hlt : compare x (k++[0]) = .lt) :
    x = k := by
  induction k generalizing x with
  | nil =>
    cases x with
    | nil => rfl
    | cons a x =>
      have hzero : compare a 0 ≠ .lt := by
        simp only [compare,compareOfLessAndEq,UInt8.not_lt_zero,if_false]
        split <;> exact nofun
      have hnil := compare_nil_ne_lt x
      cases ha : compare a 0 with
      | lt => exact absurd ha hzero
      | eq => exact absurd (by simpa [ha] using hlt) hnil
      | gt => simp [ha] at hlt
  | cons b k ih =>
    cases x with
    | nil => exact absurd rfl hge
    | cons a x =>
      rw [cons_append,compare_cons] at hlt
      rw [compare_cons] at hge
      cases ha : compare a b with
      | lt => simp [ha] at hge
      | gt => simp [ha] at hlt
      | eq =>
        rw [ha] at hlt hge
        rw [Std.LawfulEqOrd.eq_of_compare ha,ih hge hlt]

end Fronts

section Agreement
variable {es : List Entry} {found : Bytes → Option Bytes}

lemma Orderly.userKey_ne_nil (h : Orderly es found) {e : Entry} (he : e ∈ frontsFrom [] es)
    (hvalue : e.key.isDeletion = false) : e.key.userKey ≠ [] := by
  intro hnil
  have hfirst : ∀ {last : Bytes} {es : List Entry}, ∀ x xs, frontsFrom last es = x::xs → x.key.userKey ≠ last := by
    intro last es
    induction es with
    | nil => exact nofun
    | cons y es ih =>
      intro x xs hx
      rw [frontsFrom,keepNewest] at hx
      split at hx
      · exact ih x xs hx
      · rename_i hne
        rw [if_neg Bool.false_ne_true] at hx
        exact (cons.inj hx).1 ▸ hne
  cases hfronts : frontsFrom [] es with
  | nil =>
    rw [hfronts] at he
    cases he
  | cons x xs =>
    have hord := h.ordered
    rw [hfronts] at he hord
    rcases mem_cons.mp he with rfl | he
    · exact hfirst _ _ hfronts hnil
    · exact compare_nil_ne_lt _ (hnil ▸ (pairwise_cons.mp hord).1 e he hvalue)

theorem Orderly.agrees (h : Orderly es found) (start stop : Bytes) : Agrees es found start stop := by
  rw [Agrees,keepNewestEntries,keepNewest_eq_filter]
  have hsub : (frontsFrom [] (entriesRanged start stop es)).Sublist (frontsFrom [] es) :=
    fronts_ranged_sublist fun _ => rfl
  refine ⟨?_,?_⟩
  · rw [pairwise_map,pairwise_filter]
    refine (h.ordered.sublist hsub).imp fun {x e} hxe _ hvalue => ?_
    exact hxe (by simpa using hvalue)
  · intro k v
    constructor
    · intro hmem
      obtain ⟨e,he,heq⟩ := mem_map.mp hmem
      obtain ⟨hfront,hvalue⟩ := mem_filter.mp he
      obtain ⟨rfl,rfl⟩ := Prod.mk.inj heq
      obtain ⟨-,hstart,hstop⟩ := mem_ranged ((keepNewest_sublist _ _ _ _).subset hfront)
      exact ⟨hstart,hstop,h.shown e (hsub.subset hfront) (by simpa using hvalue)⟩
    · rintro ⟨hstart,hstop,hfound⟩
      obtain ⟨e,he,rfl,hvalue⟩ := h.complete k v hfound
      have hv : e.value = v := some.inj ((h.shown e he hvalue).symm.trans hfound)
      have hpos : compare [] e.key.userKey = .lt := by
        cases hk : e.key.userKey with
        | nil => exact absurd hk (h.userKey_ne_nil he hvalue)
        | cons b k => rfl
      have hreached := mem_fronts_ranged (fun _ => rfl) hpos hpos h.ordered he hvalue rfl hstart hstop
      exact mem_map.mpr ⟨e,mem_filter.mpr ⟨hreached,by simp [hvalue]⟩,Prod.ext rfl hv⟩

/-- The scan of a single key that a lookup finds shows that its first version comes before all larger
keys, and is a value. -/
lemma first_of_agrees (h : ∀ start stop, Agrees es found start stop) {k v : Bytes} (hk : found k = some v) :
    k ≠ [] ∧ ∃ before e after, es = before ++ e::after ∧ e.key.userKey = k ∧ e.key.isDeletion = false ∧
      ∀ x ∈ before, compare x.key.userKey k = .lt := by
  have hitem := ((h k (k++[0])).2 k v).mpr ⟨by simp [Std.ReflOrd.compare_self],.inr (compare_append_zero k),hk⟩
  obtain ⟨e,he,-⟩ := mem_map.mp hitem
  have hall : ∀ x ∈ entriesRanged k (k++[0]) es, x.key.userKey = k := by
    intro x hx
    obtain ⟨-,hge,hlt⟩ := mem_ranged hx
    exact eq_of_lt_append_zero hge (hlt.resolve_left (by simp))
  cases hscan : entriesRanged k (k++[0]) es with
  | nil =>
    rw [hscan] at he
    cases he
  | cons f rest =>
    rw [hscan] at he hall
    have hf := hall f mem_cons_self
    -- everything behind the first version is passed over
    have hrest : ∀ l : List Entry, (∀ x ∈ l, x.key.userKey = k) → keepNewestEntries k l = [] := by
      intro l hl
      induction l with
      | nil => rfl
      | cons x l ih =>
        rw [keepNewestEntries,keepNewest,if_pos (hl x mem_cons_self)]
        exact ih fun y hy => hl y (mem_cons_of_mem x hy)
    have htail := hrest rest fun x hx => hall x (mem_cons_of_mem f hx)
    have hne : k ≠ [] := by
      rintro rfl
      rw [hrest _ hall] at he
      cases he
    refine ⟨hne,?_⟩
    rw [keepNewestEntries,keepNewest,hf,if_neg hne] at he
    have hvalue : f.key.isDeletion = false := by
      cases hd : f.key.isDeletion with
      | false => rfl
      | true =>
        rw [hd,if_pos rfl] at he
        rw [keepNewestEntries] at htail
        rw [htail] at he
        cases he
    have hfilter : (es.filter fun x => compare x.key.userKey k ≠ .lt).head? = some f := by
      rw [entriesRanged,ranged] at hscan
      cases hl : es.filter fun x => compare x.key.userKey k ≠ .lt with
      | nil =>
        rw [hl] at hscan
        cases hscan
      | cons y l =>
        rw [hl,takeWhile_cons] at hscan
        split at hscan
        · exact congrArg some (cons.inj hscan).1
        · cases hscan
    rw [head?_filter] at hfilter
    obtain ⟨-,before,after,heq,hbefore⟩ := find?_eq_some_iff_append.mp hfilter
    exact ⟨before,f,after,heq,hf,hvalue,fun x hx => by simpa using hbefore x hx⟩

theorem orderly_of_agrees (h : ∀ start stop, Agrees es found start stop) : Orderly es found := by
  have hall := h [] []
  rw [Agrees,ranged_nil_nil,keepNewestEntries,keepNewest_eq_filter,pairwise_map,pairwise_filter] at hall
  obtain ⟨hsorted,hitems⟩ := hall
  have hshown : ∀ e ∈ frontsFrom [] es, e.key.isDeletion = false → found e.key.userKey = some e.value := by
    intro e he hvalue
    have hfilter : e ∈ (frontsFrom [] es).filter fun e => !e.key.isDeletion :=
      mem_filter.mpr ⟨he,by simp [hvalue]⟩
    exact ((hitems e.key.userKey e.value).mp (mem_map_of_mem hfilter)).2.2
  have hfronts : ∀ {k v : Bytes}, found k = some v → ∃ front e rest, frontsFrom [] es = front ++ e::rest ∧
      e.key.userKey = k ∧ e.key.isDeletion = false ∧ ∀ x ∈ front, compare x.key.userKey k = .lt := by
    intro k v hk
    obtain ⟨hne,before,e,after,rfl,rfl,hvalue,hbefore⟩ := first_of_agrees h hk
    have hdiffer : ∀ x ∈ before, x.key.userKey ≠ e.key.userKey := fun x hx => ne_of_compare_lt (hbefore x hx)
    obtain ⟨rest,heq⟩ := fronts_append [] hne.symm hdiffer
    exact ⟨_,e,rest,heq,rfl,hvalue,fun x hx => hbefore x ((keepNewest_sublist _ _ _ _).subset hx)⟩
  refine ⟨?_,hshown,?_⟩
  · rw [pairwise_iff_getElem]
    intro i j hi hj hij hvalue
    obtain ⟨front,e,rest,heq,hek,hevalue,hfront⟩ := hfronts (hshown _ (getElem_mem hj) hvalue)
    -- the front at `j` is the first version of its key: it is not before it, nor shown twice
    have hlen : front.length<(frontsFrom [] es).length := by rw [heq]; simp
    have hget : (frontsFrom [] es)[front.length] = e := by simp [heq]
    rcases Nat.lt_trichotomy j front.length with hlt | rfl | hgt
    · have hmem : (frontsFrom [] es)[j] ∈ front := by
        rw [getElem_of_eq heq,getElem_append_left hlt]
        exact getElem_mem hlt
      have habsurd := hfront _ hmem
      rw [Std.ReflOrd.compare_self] at habsurd
      cases habsurd
    · have hmem : (frontsFrom [] es)[i] ∈ front := by
        rw [getElem_of_eq heq,getElem_append_left hij]
        exact getElem_mem hij
      exact hfront _ hmem
    · have hlt := pairwise_iff_getElem.mp hsorted front.length j hlen hj hgt (by simp [hget,hevalue])
        (by simp [hvalue])
      rw [hget] at hlt
      change compare e.key.userKey _ = .lt at hlt
      rw [hek] at hlt
      have habsurd : compare (frontsFrom [] es)[j].key.userKey (frontsFrom [] es)[j].key.userKey = .lt := hlt
      rw [Std.ReflOrd.compare_self] at habsurd
      cases habsurd
  · intro k v hk
    obtain ⟨front,e,rest,heq,hek,hevalue,-⟩ := hfronts hk
    exact ⟨e,by rw [heq]; simp,hek,hevalue⟩

end Agreement

namespace DBImpl
variable {db : DBImpl}

lemma get_eq_found (db : DBImpl) (k : Bytes) : db.get k = answer (db.found k) := by
  have hreader : ∀ path, ((db.disk.reader path).bind fun reader => reader.get k) =
      ((db.disk.reader path).map entries).bind fun es => (newest es k).bind live := by
    intro path
    cases hr : db.disk.reader path with
    | none => rfl
    | some t => exact lookup_eq t.ascending k
  have htables : ((range (db.options.maxLevel+1)).findSome? fun level =>
      (db.version.getLevelFiles level).findSome? fun path => (db.disk.reader path).bind fun reader => reader.get k) =
      ((range (db.options.maxLevel+1)).flatMap fun level =>
        (db.version.getLevelFiles level).filterMap fun path =>
        (db.disk.reader path).map entries).findSome? fun es => (newest es k).bind live := by
    simp only [hreader,Layers.findSome?_flatMap,Layers.findSome?_filterMap]
  have hfrozen : (db.immutableList.reverse.findSome? fun m => m.table.get k db.seq) =
      (db.immutableList.reverse.map fun m => m.table.chain).findSome? fun es => (newest es k).bind live := by
    rw [findSome?_map]
    simp only [MemTable.get_eq]
    rfl
  rw [get,found,layers,cons_append,findSome?_cons,findSome?_append,htables,hfrozen,MemTable.get_eq]
  cases (newest db.memtable.table.chain k).bind live with
  | some v => rfl
  | none =>
    cases (db.immutableList.reverse.map fun m => m.table.chain).findSome? _ with
    | some v => rfl
    | none => cases List.findSome? _ _ <;> rfl

lemma complete_of_stored (h : ∀ stored ∈ db.surfacing, (db.found stored.key.userKey).isSome = true →
    ∃ e ∈ frontsFrom [] db.surfacing, e.key.userKey = stored.key.userKey ∧ e.key.isDeletion = false) :
    ∀ k v, db.found k = some v →
      ∃ e ∈ frontsFrom [] db.surfacing, e.key.userKey = k ∧ e.key.isDeletion = false := by
  intro k v hk
  obtain ⟨es,hes,hlive⟩ := exists_of_findSome?_eq_some hk
  obtain ⟨stored,hnewest,-⟩ := bind_eq_some_iff.mp hlive
  obtain rfl := userKey_of_newest hnewest
  have hstored : stored ∈ db.surfacing := HeadMerge.mem_surfacing.mpr ⟨es,hes,mem_of_find?_eq_some hnewest⟩
  exact h stored hstored (by rw [hk]; rfl)

lemma tables_sublist (db : DBImpl) (level : ℕ) : ((db.version.getLevelFiles level).filterMap fun path =>
    (db.disk.reader path).map entries).Sublist (db.runsAt level) := by
  rw [Version.getLevelFiles,runsAt,filterMap_map]
  induction filesAt db.version.levels level with
  | nil => exact Sublist.slnil
  | cons f files ih =>
    rw [filterMap_cons,map_cons,Function.comp_apply]
    have hentries : db.disk.entriesOf f.path = ((db.disk.reader f.path).map entries).getD [] := by
      rw [Disk.entriesOf]
      cases db.disk.reader f.path <;> rfl
    rw [hentries]
    cases (db.disk.reader f.path).map entries with
    | none => exact ih.cons _
    | some es => exact ih.cons_cons es

lemma ByAge.separate (h : db.ByAge) (hseq : db.seq<2^56) : Separate db.layers := by
  have hreverse : db.memRuns.reverse =
      db.memtable.table.chain::db.immutableList.reverse.map fun m => m.table.chain := by
    rw [memRuns,reverse_append,map_reverse]
    rfl
  have hne : ∀ {a b : List Entry}, Before a b → ∀ x ∈ a, ∀ y ∈ b, x.key.seq ≠ y.key.seq :=
    fun hab x hx y hy => (hab x hx y hy).ne
  have hmem : ∀ es ∈ db.layers, es ∈ db.memRuns ∨ ∃ level, es ∈ db.runsAt level := by
    intro es hes
    rw [layers,← hreverse] at hes
    rcases mem_append.mp hes with hes | hes
    · exact .inl (mem_reverse.mp hes)
    · obtain ⟨level,-,hes⟩ := mem_flatMap.mp hes
      exact .inr ⟨level,(db.tables_sublist level).subset hes⟩
  refine ⟨?_,?_,?_⟩
  · intro es hes
    rcases hmem es hes with hes | ⟨level,hes⟩
    · rcases mem_append.mp hes with hes | hes
      · obtain ⟨m,-,rfl⟩ := mem_map.mp hes
        exact m.table.ascending
      · rw [mem_singleton.mp hes]
        exact db.memtable.table.ascending
    · obtain ⟨m,-,rfl⟩ := mem_map.mp hes
      exact db.disk.ascending_entriesOf m.path
  · intro es hes e he
    refine lt_of_le_of_lt ?_ hseq
    rcases hmem es hes with hes | ⟨level,hes⟩
    · rcases mem_append.mp hes with hes | hes
      · obtain ⟨m,hm,rfl⟩ := mem_map.mp hes
        exact h.seq_le_of_mem_immutable hm he
      · rw [mem_singleton.mp hes] at he
        exact h.bounded.active e he
    · exact h.bounded.live e (liveEntry_of_mem_runsAt hes he)
  · rw [layers,← hreverse]
    refine pairwise_append.mpr ⟨?_,?_,?_⟩
    · exact pairwise_reverse.mpr (h.memory.imp fun hab x hx y hy => (hne hab y hy x hx).symm)
    · rw [pairwise_flatMap]
      refine ⟨?_,?_⟩
      · intro level _
        exact ((h.leveled.level level).imp hne).sublist (db.tables_sublist level)
      · refine pairwise_lt_range.imp ?_
        intro i j hij a ha b hb x hx y hy
        have hold := h.leveled.deeper i j hij b ((db.tables_sublist j).subset hb) a ((db.tables_sublist i).subset ha)
        exact (hne hold y hy x hx).symm
    · intro a ha b hb x hx y hy
      obtain ⟨level,-,hb⟩ := mem_flatMap.mp hb
      have hold := h.flushed level b ((db.tables_sublist level).subset hb) a (mem_reverse.mp ha)
      exact (hne hold y hy x hx).symm

end DBImpl

namespace Server

/-- The pairs of a scan are exactly those that lookups find in the range, once each and in order. -/
def ScanAgrees (Q : Heap) (db : DBImpl) (start stop : Bytes) : Prop :=
  ∃ items, scanItems Q db start stop = some (.ok items) ∧
    items.Pairwise (fun a b => compare a.1 b.1 = .lt) ∧
    ∀ k v, (k,v) ∈ items ↔
      compare k start ≠ .lt ∧ (stop = [] ∨ compare k stop = .lt) ∧ kGet db k = ⟨.ok,v⟩

lemma kGet_eq_ok_iff {db : DBImpl} {k v : Bytes} : kGet db k = ⟨.ok,v⟩ ↔ db.found k = some v := by
  rw [kGet,DBImpl.get_eq_found]
  cases db.found k with
  | none => exact ⟨nofun,nofun⟩
  | some w =>
    simp only [answer,Response.mk.injEq,true_and,some.injEq]

/-- In every state of a session, scans agree with lookups just if the stored entries surface in an
orderly way. -/
theorem scanAgrees_iff_orderly (Q : Heap) (options : Options) {events : List Event}
    (hsession : ∀ e ∈ events, e.inSession = true) (hseq : ((DBImpl.fresh options).run events).seq<2^56) :
    (∀ start stop, ScanAgrees Q ((DBImpl.fresh options).run events) start stop) ↔
      Orderly ((DBImpl.fresh options).run events).surfacing ((DBImpl.fresh options).run events).found := by
  have hseparate := ((DBImpl.ByAge.fresh options).run hsession).separate hseq
  have hagrees : ∀ start stop, ScanAgrees Q ((DBImpl.fresh options).run events) start stop ↔
      Agrees ((DBImpl.fresh options).run events).surfacing ((DBImpl.fresh options).run events).found start stop := by
    intro start stop
    simp only [ScanAgrees,hseparate.scanItems_eq,some.injEq,Except.ok.injEq,exists_eq_left',kGet_eq_ok_iff]
    rfl
  simp only [hagrees]
  exact ⟨orderly_of_agrees,Orderly.agrees⟩

def settledEvents : List Event :=
  [.write [[⟨.put,[1],[7]⟩]],.write [[⟨.put,[1],[8]⟩]],.freeze,.flush,.write [[⟨.put,[2],[9]⟩]]]

theorem scanAgrees_of_settled : Orderly ((DBImpl.fresh ⟨100,6⟩).run settledEvents).surfacing
    ((DBImpl.fresh ⟨100,6⟩).run settledEvents).found ∧
    ∀ start stop, ScanAgrees sortedHeap ((DBImpl.fresh ⟨100,6⟩).run settledEvents) start stop := by
  have horderly : Orderly ((DBImpl.fresh ⟨100,6⟩).run settledEvents).surfacing
      ((DBImpl.fresh ⟨100,6⟩).run settledEvents).found := by
    refine ⟨by decide +kernel,by decide +kernel,DBImpl.complete_of_stored ?_⟩
    decide +kernel
  exact ⟨horderly,(scanAgrees_iff_orderly sortedHeap ⟨100,6⟩ (by decide) (by decide +kernel)).mpr horderly⟩

/-- The MemTable was frozen between the two puts: the scan returns the older value. -/
theorem not_scanAgrees_after_freeze :
    let db := (DBImpl.fresh ⟨100,6⟩).run [.write [[⟨.put,[1],[7]⟩]],.freeze,.write [[⟨.put,[1],[8]⟩]]]
    scanItems sortedHeap db [] [] = some (.ok [([1],[7])]) ∧ kGet db [1] = ⟨.ok,[8]⟩ ∧
      ¬ScanAgrees sortedHeap db [] [] := by
  intro db
  have hscan : scanItems sortedHeap db [] [] = some (.ok [([1],[7])]) := by decide +kernel
  have hget : kGet db [1] = ⟨.ok,[8]⟩ := by decide +kernel
  refine ⟨hscan,hget,?_⟩
  rintro ⟨items,hitems,-,hagree⟩
  rw [hscan] at hitems
  obtain rfl := Except.ok.inj (some.inj hitems)
  have hmem := (hagree [1] [8]).mpr ⟨by decide,.inl rfl,hget⟩
  simp at hmem

end Server
end TitanKV.Minikv
