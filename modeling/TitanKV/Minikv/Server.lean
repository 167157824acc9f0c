import TitanKV.Minikv.Ages
import TitanKV.Minikv.MergeRefinement
import TitanKV.Minikv.MergingOrder
import TitanKV.Minikv.Protocol

/-! The read requests of the server: a point lookup, and a scan over the merge of all MemTables and
SSTables. -/
namespace TitanKV.Minikv
open HeadMerge List MergingIterator

def encodeScanPayload (items : List KeyValue) : Bytes :=
  encodeFixed32 items.length ++ items.flatMap fun kv =>
    encodeFixed32 kv.1.length ++ kv.1 ++ encodeFixed32 kv.2.length ++ kv.2

namespace DBImpl

/-- The runs of entries that `get` and `newIterator` visit, in that order; a file that cannot be opened
is skipped. -/
def layers (db : DBImpl) : List (List Entry) :=
  db.memtable.table.chain::db.immutableList.reverse.map (fun m => m.table.chain) ++
    (range (db.options.maxLevel+1)).flatMap fun level =>
      (db.version.getLevelFiles level).filterMap fun path => (db.disk.reader path).map SSTable.entries

def newIterator (Q : Heap) (db : DBImpl) : MergingIterator Q :=
  let mem := SnapshotIterator.ofMemTable (db.memtable.table.chain.map Entry.bytes)
  let imms := db.immutableList.reverse.map fun m => SnapshotIterator.ofMemTable (m.table.chain.map Entry.bytes)
  let tables := (range (db.options.maxLevel+1)).flatMap fun level =>
    (db.version.getLevelFiles level).filterMap fun path =>
      (db.disk.reader path).map fun reader => SnapshotIterator.ofScan (.Ok,reader.entries.map Entry.bytes)
  (ofChildren Q (mem::imms ++ tables)).seekToFirst

end DBImpl

namespace Server
variable {Q : Heap} {it : MergingIterator Q} {es : List KeyValue} {start stop : Bytes}

def kGet (db : DBImpl) (key : Bytes) : Response :=
  match db.get key with
  | .ok value => ⟨.ok,value⟩
  | .error _ => ⟨.notFound,[]⟩

/-- The loop of the `kScan` branch: the items and where the iterator stands. -/
def scanLoop (start stop : Bytes) :
    ℕ → MergingIterator Q → Bytes → List KeyValue → Option (List KeyValue × MergingIterator Q)
  | 0,_,_,_ => none
  | fuel+1,it,lastUser,items =>
    if it.valid = false then some (items,it)
    else if it.key.length<8 then scanLoop start stop fuel it.next lastUser items
    else
      let uks := internalKeyUserKey it.key
      if start ≠ [] ∧ compare uks start = .lt then scanLoop start stop fuel it.next lastUser items
      else if stop ≠ [] ∧ compare uks stop ≠ .lt then some (items,it)
      else if uks = lastUser then scanLoop start stop fuel it.next lastUser items
      else if internalKeyType it.key = ValueType.deletion.code then scanLoop start stop fuel it.next uks items
      else scanLoop start stop fuel it.next uks (items++[(uks,it.value)])

def scanItems (Q : Heap) (db : DBImpl) (start stop : Bytes) : Option (Except Status (List KeyValue)) :=
  let it := (db.newIterator Q).seekToFirst
  (scanLoop start stop (it.remaining+1) it [] []).map fun r =>
    if r.2.statusOf.ok then .ok r.1 else .error r.2.statusOf

def kScan (Q : Heap) (db : DBImpl) (start stop : Bytes) : Option Response :=
  (scanItems Q db start stop).map fun r =>
    match r with
    | .ok items => ⟨.ok,encodeScanPayload items⟩
    | .error status => ⟨.error,ascii status.msg.toList⟩

/-- The entries of the merge that the loop does not pass over, up to the first one past the range. -/
def ranged {ε : Type*} (userKey : ε → Bytes) (start stop : Bytes) (es : List ε) : List ε :=
  (es.filter fun e => compare (userKey e) start ≠ .lt).takeWhile fun e =>
    stop = [] ∨ compare (userKey e) stop = .lt

lemma ranged_cons {ε : Type*} (userKey : ε → Bytes) (start stop : Bytes) (e : ε) (es : List ε) :
    ranged userKey start stop (e::es) =
      if compare (userKey e) start = .lt then ranged userKey start stop es
      else if stop = [] ∨ compare (userKey e) stop = .lt then e::ranged userKey start stop es else [] := by
  rw [ranged]
  by_cases hstart : compare (userKey e) start = .lt
  · rw [if_pos hstart,filter_cons_of_neg (by simpa using hstart)]
    rfl
  · rw [if_neg hstart,filter_cons_of_pos (by simpa using hstart),takeWhile_cons]
    simp only [decide_eq_true_eq]
    rfl

lemma ranged_map {ε ζ : Type*} {userKey : ε → Bytes} {userKey' : ζ → Bytes} {f : ε → ζ}
    (h : ∀ e, userKey' (f e) = userKey e) (start stop : Bytes) (es : List ε) :
    ranged userKey' start stop (es.map f) = (ranged userKey start stop es).map f := by
  induction es with
  | nil => rfl
  | cons e es ih =>
    rw [map_cons,ranged_cons,ranged_cons,h,ih]
    split
    · rfl
    · split <;> rfl

lemma mem_ranged {ε : Type*} {userKey : ε → Bytes} {e : ε} {es : List ε} (h : e ∈ ranged userKey start stop es) :
    e ∈ es ∧ compare (userKey e) start ≠ .lt ∧ (stop = [] ∨ compare (userKey e) stop = .lt) := by
  have hfilter := (takeWhile_sublist _).subset h
  obtain ⟨hmem,hstart⟩ := mem_filter.mp hfilter
  have hstop := all_eq_true.mp all_takeWhile e h
  exact ⟨hmem,by simpa using hstart,by simpa using hstop⟩

lemma compare_nil_ne_lt (k : Bytes) : compare k [] ≠ .lt := by
  cases k <;> simp [compare,List.compareLex]

def userKeyOf (e : KeyValue) : Bytes := internalKeyUserKey e.1

def isTombstone (e : KeyValue) : Bool := internalKeyType e.1 = ValueType.deletion.code

/-- The loop of both branches: what it takes of the first entry of a user key is `take`. -/
def rangeLoop {α : Type} (take : KeyValue → Option α) (start stop : Bytes) :
    ℕ → MergingIterator Q → Bytes → List α → Option (List α × MergingIterator Q)
  | 0,_,_,_ => none
  | fuel+1,it,lastUser,taken =>
    if it.valid = false then some (taken,it)
    else if it.key.length<8 then rangeLoop take start stop fuel it.next lastUser taken
    else
      let uks := internalKeyUserKey it.key
      if start ≠ [] ∧ compare uks start = .lt then rangeLoop take start stop fuel it.next lastUser taken
      else if stop ≠ [] ∧ compare uks stop ≠ .lt then some (taken,it)
      else if uks = lastUser then rangeLoop take start stop fuel it.next lastUser taken
      else rangeLoop take start stop fuel it.next uks (taken++(take (it.key,it.value)).toList)

def scanned (e : KeyValue) : Option KeyValue := if isTombstone e then none else some (userKeyOf e,e.2)

def tombstoned (e : KeyValue) : Option BatchOp := some ⟨.delete,userKeyOf e,[]⟩

lemma scanLoop_eq_rangeLoop (fuel : ℕ) (it : MergingIterator Q) (lastUser : Bytes) (items : List KeyValue) :
    scanLoop start stop fuel it lastUser items = rangeLoop scanned start stop fuel it lastUser items := by
  induction fuel generalizing it lastUser items with
  | zero => rfl
  | succ fuel ih =>
    by_cases hdel : internalKeyType it.key = ValueType.deletion.code
    · simp [scanLoop,rangeLoop,ih,scanned,isTombstone,hdel]
    · simp [scanLoop,rangeLoop,ih,scanned,isTombstone,userKeyOf,hdel]

/-- The first entries of the user keys of the range; the key that the loop begins with counts as seen. -/
abbrev fronts (lastUser : Bytes) : List KeyValue → List KeyValue := keepNewest userKeyOf (fun _ => false) lastUser

/-- The entries with an internal key in the range, up to the first one behind it. -/
abbrev reached (start stop : Bytes) (es : List KeyValue) : List KeyValue :=
  ranged userKeyOf start stop (es.filter fun e => 8≤e.1.length)

theorem rangeLoop_of_presents {α : Type} (take : KeyValue → Option α) (h : it.Presents es) (lastUser : Bytes)
    (taken : List α) {fuel : ℕ} (hfuel : es.length<fuel) : ∃ it', (it.Ready → it'.Ready) ∧
      rangeLoop take start stop fuel it lastUser taken =
        some (taken ++ (fronts lastUser (reached start stop es)).filterMap take,it') := by
  induction h generalizing lastUser taken fuel with
  | @done it hstop =>
    obtain ⟨fuel,rfl⟩ := Nat.exists_eq_succ_of_ne_zero (Nat.ne_zero_of_lt hfuel)
    refine ⟨it,id,?_⟩
    rw [rangeLoop,if_pos hstop]
    simp [fronts,ranged,keepNewest]
  | @step it es hgo hnext ih =>
    obtain ⟨fuel,rfl⟩ := Nat.exists_eq_succ_of_ne_zero (Nat.ne_zero_of_lt hfuel)
    have hrec (lastUser : Bytes) (taken : List α) : ∃ it', (it.Ready → it'.Ready) ∧
        rangeLoop take start stop fuel it.next lastUser taken =
          some (taken ++ (fronts lastUser (reached start stop es)).filterMap take,it') := by
      obtain ⟨it',hready,heq⟩ := @ih lastUser taken fuel (by simpa using hfuel)
      refine ⟨it',fun h => hready ?_,heq⟩
      obtain ⟨i,x,xs,hstep⟩ := h.exists_stepped hgo
      exact hstep.ready
    rw [rangeLoop,if_neg (by simp [hgo])]
    by_cases hshort : it.key.length<8
    · rw [if_pos hshort,reached,filter_cons_of_neg (by simpa using hshort)]
      exact hrec lastUser taken
    · have hcut : reached start stop ((it.key,it.value)::es) = if compare (internalKeyUserKey it.key) start = .lt
          then reached start stop es else if stop = [] ∨ compare (internalKeyUserKey it.key) stop = .lt
            then (it.key,it.value)::reached start stop es else [] := by
        rw [reached,filter_cons_of_pos (by simpa using hshort),ranged_cons]
        rfl
      rw [if_neg hshort,hcut]
      by_cases hstart : compare (internalKeyUserKey it.key) start = .lt
      · have hne : start ≠ [] := fun hnil => compare_nil_ne_lt _ (hnil ▸ hstart)
        rw [if_pos ⟨hne,hstart⟩,if_pos hstart]
        exact hrec lastUser taken
      · rw [if_neg fun hlt => hstart hlt.2,if_neg hstart]
        by_cases hstop : stop = [] ∨ compare (internalKeyUserKey it.key) stop = .lt
        · have hkey : userKeyOf (it.key,it.value) = internalKeyUserKey it.key := rfl
          rw [if_neg fun hpast => hstop.elim hpast.1 hpast.2,if_pos hstop,fronts,keepNewest,
            if_neg Bool.false_ne_true,hkey]
          by_cases hseen : internalKeyUserKey it.key = lastUser
          · rw [if_pos hseen,if_pos hseen]
            exact hrec lastUser taken
          · rw [if_neg hseen,if_neg hseen]
            obtain ⟨it',hready,heq⟩ := hrec (internalKeyUserKey it.key) (taken++(take (it.key,it.value)).toList)
            refine ⟨it',hready,heq.trans ?_⟩
            rw [append_assoc,filterMap_cons]
            cases take (it.key,it.value) <;> rfl
        · obtain ⟨hne,hpast⟩ := not_or.mp hstop
          rw [if_pos ⟨hne,hpast⟩,if_neg hstop]
          exact ⟨it,id,by simp [fronts,keepNewest]⟩

end Server

def Entry.pair (e : Entry) : KeyValue := (e.key.userKey,e.value)

lemma InternalKey.seq_eq_of_encode {k l : InternalKey} (hk : k.seq<2^56) (hl : l.seq<2^56)
    (h : k.encode = l.encode) : k.seq = l.seq := by
  have htrailer := congrArg internalKeyTrailer h
  rw [internalKeyTrailer_encode hk,internalKeyTrailer_encode hl] at htrailer
  have hk' := code_lt k.type
  have hl' := code_lt l.type
  omega

lemma InternalKey.encode_injective {k l : InternalKey} (hk : k.seq<2^56) (hl : l.seq<2^56)
    (h : k.encode = l.encode) : k = l := by
  apply compare_eq_iff.mp
  rw [← internalKeyCompare_encode hk hl,h,internalKeyCompare_encode hl hl]
  exact compare_eq_iff.mpr rfl

/-- Runs in which no sequence number is used twice. -/
structure Separate (layers : List (List Entry)) : Prop where
  ascending : ∀ es ∈ layers, Ascending es
  fits : ∀ es ∈ layers, SeqsFit es
  apart : layers.Pairwise fun a b => ∀ x ∈ a, ∀ y ∈ b, x.key.seq ≠ y.key.seq

namespace DBImpl
variable {db : DBImpl}

/-- The stored entries in the order of the largest encoded keys up to them in their runs. -/
def surfacing (db : DBImpl) : List Entry := HeadMerge.surfacing (fun e => e.key.encode) db.layers

lemma children_newIterator (Q : Heap) (db : DBImpl) : (db.newIterator Q).children =
    db.layers.map fun es => (SnapshotIterator.ofMemTable (es.map Entry.bytes)).seekToFirst := by
  rw [newIterator,children_seekToFirst]
  simp only [ofChildren,layers,map_cons,map_append,map_map,map_flatMap,
    map_filterMap,cons_append]
  congr 2
  apply flatMap_congr
  intro level _
  apply filterMap_congr
  intro path _
  cases db.disk.reader path <;> rfl

lemma status_children_newIterator (Q : Heap) (db : DBImpl) :
    ∀ c ∈ (db.newIterator Q).children, c.status.ok = true := by
  intro c hc
  rw [children_newIterator] at hc
  obtain ⟨es,-,rfl⟩ := mem_map.mp hc
  rfl

lemma status_newIterator (Q : Heap) (db : DBImpl) : (db.newIterator Q).status.ok = true := by
  rw [newIterator,status_seekToFirst,ofChildren,childStatus_eq_ok]
  · rfl
  · intro c hc
    simp only [cons_append,mem_cons,mem_append,mem_map,mem_flatMap,
      mem_filterMap,Option.map_eq_some_iff] at hc
    rcases hc with rfl | ⟨m,-,rfl⟩ | ⟨level,-,path,-,reader,-,rfl⟩
    · rfl
    · rfl
    · rfl

lemma ready_newIterator (Q : Heap) (db : DBImpl) : (db.newIterator Q).seekToFirst.Ready :=
  ready_seekToFirst (db.status_newIterator Q) (db.status_children_newIterator Q)

end DBImpl

section Scan
variable {db : DBImpl} (h : Separate db.layers)
include h

lemma Separate.entries_children (Q : Heap) :
    (db.newIterator Q).children.map SnapshotIterator.entries = db.layers.map fun es => es.map Entry.bytes := by
  rw [DBImpl.children_newIterator,map_map]
  apply map_congr_left
  intro es hes
  exact sortByKey_ascending (h.fits es hes) (h.ascending es hes)

lemma Separate.nodup_keys {es : List Entry} (hes : es ∈ db.layers) : ((es.map Entry.bytes).map Prod.fst).Nodup := by
  rw [map_map]
  refine Pairwise.map _ ?_ (Pairwise.and_mem.mp (h.ascending es hes))
  rintro a b ⟨ha,hb,hlt⟩ heq
  have hkey : a.key = b.key := InternalKey.encode_injective (h.fits es hes a ha) (h.fits es hes b hb) heq
  rw [hkey] at hlt
  exact InternalKey.lt_irrefl _ hlt

lemma Separate.seq_ne {i j : ℕ} (hij : i ≠ j) {x y : Entry} (hx : x ∈ db.layers[i]?.getD [])
    (hy : y ∈ db.layers[j]?.getD []) : x.key.seq ≠ y.key.seq := by
  have hlt : ∀ {i j : ℕ}, i<j → ∀ {x y : Entry}, x ∈ db.layers[i]?.getD [] → y ∈ db.layers[j]?.getD [] →
      x.key.seq ≠ y.key.seq := by
    intro i j hij x y hx hy
    cases hi : db.layers[i]? with
    | none => simp [hi] at hx
    | some a =>
      cases hj : db.layers[j]? with
      | none => simp [hj] at hy
      | some b =>
        rw [hi] at hx
        rw [hj] at hy
        obtain ⟨hi',rfl⟩ := List.getElem?_eq_some_iff.mp hi
        obtain ⟨hj',rfl⟩ := List.getElem?_eq_some_iff.mp hj
        exact pairwise_iff_getElem.mp h.apart i j hi' hj' hij x hx y hy
  rcases Nat.lt_or_gt_of_ne hij with hij | hij
  · exact hlt hij hx hy
  · exact (hlt hij hy hx).symm

lemma Separate.fits_get {i : ℕ} {x : Entry} (hx : x ∈ db.layers[i]?.getD []) : x.key.seq<2^56 := by
  cases hi : db.layers[i]? with
  | none => simp [hi] at hx
  | some es =>
    rw [hi] at hx
    exact h.fits es (mem_of_getElem? hi) x hx

lemma Separate.emits : Emits (fun e : Entry => e.key.encode) (fun i => db.layers[i]?.getD []) db.surfacing := by
  have hempty : ∀ i, db.layers.length ≤ i → db.layers[i]?.getD [] = [] := by
    intro i hi
    rw [getElem?_eq_none hi]
    rfl
  have hexists : ∃ out, Emits (fun e : Entry => e.key.encode) (fun i => db.layers[i]?.getD []) out := by
    refine exists_emits hempty ?_
    intro i j hij x hx y hy heq
    have hencode : x.key.encode = y.key.encode := Std.LawfulEqOrd.eq_of_compare heq
    exact h.seq_ne hij hx hy (InternalKey.seq_eq_of_encode (h.fits_get hx) (h.fits_get hy) hencode)
  obtain ⟨out,hout⟩ := hexists
  rw [DBImpl.surfacing,← hout.eq_surfacing]
  exact hout

theorem Separate.yields (Q : Heap) :
    (db.newIterator Q).seekToFirst.Yields (db.surfacing.map Entry.bytes) := by
  have hmap : Emits Prod.fst (fun i => (db.layers[i]?.getD []).map Entry.bytes) (db.surfacing.map Entry.bytes) :=
    Emits.map h.emits
  refine yields_seekToFirst (db.status_newIterator Q) (db.status_children_newIterator Q) ?_ ?_
  · intro c hc
    rw [DBImpl.children_newIterator] at hc
    obtain ⟨es,hes,rfl⟩ := mem_map.mp hc
    have hentries := sortByKey_ascending (h.fits es hes) (h.ascending es hes)
    change ((sortByKey (es.map Entry.bytes)).map Prod.fst).Nodup
    rw [hentries]
    exact h.nodup_keys hes
  · have hruns : (fun i => ((db.newIterator Q).children.map SnapshotIterator.entries)[i]?.getD []) =
        fun i : ℕ => (db.layers[i]?.getD []).map Entry.bytes := by
      funext i
      rw [h.entries_children,getElem?_map]
      cases db.layers[i]? <;> rfl
    rw [hruns]
    exact hmap

theorem Separate.scanItems_eq (Q : Heap) (start stop : Bytes) : Server.scanItems Q db start stop =
    some (.ok ((keepNewestEntries [] (Server.ranged (fun e => e.key.userKey) start stop db.surfacing)).map
      Entry.pair)) := by
  have hpresents := (h.yields Q).presents
  have hready := db.ready_newIterator Q
  obtain ⟨it,hready',hloop⟩ := @Server.rangeLoop_of_presents Q _ _ start stop _ Server.scanned hpresents [] []
    _ (Nat.lt_succ_of_le (hpresents.length_le_of_ready hready))
  rw [Server.scanItems,Server.scanLoop_eq_rangeLoop,hloop,Option.map_some,
    if_pos (hready' hready).loaded.statusOf_ok,nil_append]
  have hfits : SeqsFit db.surfacing := by
    intro e he
    obtain ⟨es,hes,hmem⟩ := mem_surfacing.mp he
    exact h.fits es hes e hmem
  have hlong : (db.surfacing.map Entry.bytes).filter (fun e => 8≤e.1.length) = db.surfacing.map Entry.bytes := by
    apply filter_eq_self.mpr
    intro e he
    obtain ⟨e,-,rfl⟩ := mem_map.mp he
    simp [Entry.bytes,InternalKey.encode]
  have hkey (e : Entry) : Server.userKeyOf e.bytes = e.key.userKey := internalKeyUserKey_encode e.key
  have hscanned : ∀ e ∈ Server.ranged (fun e => e.key.userKey) start stop db.surfacing,
      Server.scanned e.bytes = if !e.key.isDeletion then some e.pair else none := by
    intro e he
    rw [Server.scanned,Server.isTombstone,(bytes_keeps (hfits e (Server.mem_ranged he).1)).2,hkey]
    cases e.key.isDeletion <;> rfl
  rw [Server.reached,hlong,Server.ranged_map hkey,keepNewestEntries,keepNewest_eq_filter,
    ← congrFun filterMap_eq_map (filter _ _),filterMap_filter,Server.fronts,
    keepNewest_map [] fun e _ => ⟨hkey e,rfl⟩,filterMap_map]
  refine congrArg (some ∘ Except.ok) (filterMap_congr fun e he => hscanned e ?_)
  exact (keepNewest_sublist _ _ _ _).subset he

end Scan
end TitanKV.Minikv
