import TitanKV.Library.Directory
import TitanKV.Library.Lru
import TitanKV.Minikv.Coding

/-! The cache of decompressed blocks: a list in the order of use, a map of iterators into it
and the number of bytes that it holds. -/
namespace TitanKV.Minikv
open List Lru

structure BlockCacheKey (π : Type) where
  path : π
  offset : ℕ
  deriving DecidableEq, Repr

/-- An element of `list_`, to which iterators point by its address. -/
structure CacheNode (π : Type) where
  address : ℕ
  key : BlockCacheKey π
  data : Bytes
  size : ℕ
  deriving DecidableEq, Repr

/-- New elements get the address `next`. -/
structure BlockCache (π : Type) where
  capacity : ℕ
  used : ℕ
  list : List (CacheNode π)
  map : Directory (BlockCacheKey π) ℕ
  next : ℕ

namespace BlockCache
variable {π : Type} [DecidableEq π]

def init (capacity : ℕ) : BlockCache π := ⟨capacity,0,[],[],0⟩

/-- `used_bytes_ -= size` on a `size_t`. -/
def deduct (used size : ℕ) : ℕ := (used+2^64-size) % 2^64

variable (c : BlockCache π)

def deref (it : ℕ) : Option (CacheNode π) := c.list.find? fun n => n.address = it

/-- An iterator that points to no element leaves the cache alone. -/
def get (key : BlockCacheKey π) : Option Bytes × BlockCache π :=
  match (c.map.get key).bind c.deref with
  | none => (none,c)
  | some n => (some n.data,{ c with list := n::c.list.filter fun m => m.address ≠ n.address })

/-- One round of the loop of `evict`. -/
def popBack (last : CacheNode π) : BlockCache π :=
  { c with used := deduct c.used last.size, list := c.list.dropLast, map := c.map.unlink last.key }

/-- The loop of `evict`, which takes an element off the list in every round. -/
def evictLoop : ℕ → BlockCache π → BlockCache π
  | 0,c => c
  | fuel+1,c =>
    if c.capacity<c.used then
      match c.list.getLast? with
      | none => c
      | some last => evictLoop fuel (c.popBack last)
    else c

def evict : BlockCache π := evictLoop c.list.length c

def erase (key : BlockCacheKey π) : BlockCache π :=
  match (c.map.get key).bind c.deref with
  | none => c
  | some n =>
    { c with
      used := deduct c.used n.data.length
      list := c.list.filter fun m => m.address ≠ n.address
      map := c.map.unlink key }

def pushFront (key : BlockCacheKey π) (data : Bytes) : BlockCache π :=
  { c with
    used := (c.used+data.length) % 2^64
    list := ⟨c.next,key,data,data.length⟩::c.list
    map := c.map.set key c.next
    next := c.next+1 }

def put (key : BlockCacheKey π) (data : Bytes) : BlockCache π := ((c.erase key).pushFront key data).evict

def invalidatePath (path : π) : BlockCache π :=
  let gone := c.list.filter fun n => n.key.path = path
  { c with
    used := gone.foldl (fun used n => deduct used n.size) c.used
    list := c.list.filter fun n => n.key.path ≠ path
    map := gone.foldl (fun map n => map.unlink n.key) c.map }

inductive Call (π : Type)
  | get (key : BlockCacheKey π)
  | put (key : BlockCacheKey π) (data : Bytes)
  | invalidatePath (path : π)

def step : Call π → BlockCache π
  | .get key => (c.get key).2
  | .put key data => c.put key data
  | .invalidatePath path => c.invalidatePath path

def held : ℕ := total CacheNode.size c.list

def Call.size : Call π → ℕ
  | .put _ data => data.length
  | _ => 0

def Call.uses : Call π → Option (BlockCacheKey π)
  | .get key => some key
  | .put key _ => some key
  | .invalidatePath _ => none

/-- There was a use of `a` with no use of `b` from then on. -/
def UsedAfter (calls : List (Call π)) (a b : BlockCacheKey π) : Prop :=
  ∃ earlier later, calls = earlier++later ∧ (∃ call ∈ later, call.uses = some a) ∧ ∀ call ∈ later, call.uses ≠ some b

def Call.stores (key : BlockCacheKey π) : Call π → Option Bytes
  | .put k data => if k = key then some data else none
  | _ => none

def lastPut (key : BlockCacheKey π) (calls : List (Call π)) : Option Bytes :=
  calls.reverse.findSome? (Call.stores key)

def entries : Directory (BlockCacheKey π) Bytes := c.list.map fun n => (n.key,n.data)

/-- The calls lead to this state, and what is held at a time fits into the memory. -/
inductive Reached (capacity : ℕ) : List (Call π) → BlockCache π → Prop
  | init : Reached capacity [] (.init capacity)
  | step {calls c} (call : Call π) : Reached capacity calls c → c.held+call.size<2^64 →
      Reached capacity (calls++[call]) (c.step call)

variable {c}

/-- The list, the map and the counter belong together. -/
structure Linked (c : BlockCache π) : Prop where
  links : c.map.Perm (c.list.map fun n => (n.key,n.address))
  keys : (c.list.map CacheNode.key).Nodup
  addresses : (c.list.map CacheNode.address).Nodup
  fresh : ∀ n ∈ c.list, n.address<c.next
  sizes : ∀ n ∈ c.list, n.size = n.data.length
  used : c.used = c.held
  bounded : c.held<2^64

lemma deduct_eq {used size : ℕ} (hsize : size≤used) (hused : used<2^64) : deduct used size = used-size := by
  rw [deduct]
  omega

omit [DecidableEq π] in
lemma foldl_deduct {used : ℕ} {ns : List (CacheNode π)} (hle : total CacheNode.size ns ≤ used)
    (hused : used<2^64) :
    ns.foldl (fun used n => deduct used n.size) used = used-total CacheNode.size ns := by
  induction ns generalizing used with
  | nil => rfl
  | cons n ns ih =>
    rw [total_cons] at hle ⊢
    rw [foldl_cons,deduct_eq (by omega) hused,ih (by omega) (by omega)]
    omega

namespace Linked
variable (h : c.Linked)
include h

omit [DecidableEq π] in
lemma eq_of_key {n m : CacheNode π} (hn : n ∈ c.list) (hm : m ∈ c.list) (heq : n.key = m.key) : n = m :=
  inj_on_of_nodup_map h.keys hn hm heq

omit [DecidableEq π] in
lemma eq_of_address {n m : CacheNode π} (hn : n ∈ c.list) (hm : m ∈ c.list) (heq : n.address = m.address) : n = m :=
  inj_on_of_nodup_map h.addresses hn hm heq

omit [DecidableEq π] in
lemma names_perm : c.map.names.Perm (c.list.map CacheNode.key) := by
  have hnames := h.links.map Prod.fst
  rwa [map_map] at hnames

variable {n : CacheNode π}

omit [DecidableEq π] in
lemma deref_eq (hn : n ∈ c.list) : c.deref n.address = some n := by
  cases hderef : c.deref n.address with
  | none => exact (find?_eq_none.mp hderef n hn (by simp)).elim
  | some m =>
    have hm : m.address = n.address := by simpa using find?_some hderef
    rw [h.eq_of_address (mem_of_find?_eq_some hderef) hn hm]

variable (key : BlockCacheKey π)

lemma get_map_eq :
    c.map.get key = (c.list.find? fun n => n.key = key).map CacheNode.address := by
  rw [Directory.get_of_perm (h.names_perm.nodup_iff.mpr h.keys) h.links,Directory.get,find?_map,Option.map_map]
  rfl

/-- Going through the map finds the element with the key. -/
lemma find_eq : (c.map.get key).bind c.deref = c.list.find? fun n => n.key = key := by
  rw [h.get_map_eq]
  cases hfind : c.list.find? fun n => n.key = key with
  | none => rfl
  | some n => exact h.deref_eq (mem_of_find?_eq_some hfind)

lemma filter_address (hn : n ∈ c.list) :
    (c.list.filter fun m => m.address ≠ n.address) = c.list.filter fun m => m.key ≠ n.key := by
  apply filter_congr
  intro m hm
  rw [decide_eq_decide,not_iff_not]
  exact ⟨fun ha => h.eq_of_address hm hn ha ▸ rfl,fun hk => h.eq_of_key hm hn hk ▸ rfl⟩

lemma perm_cons (hn : n ∈ c.list) : c.list.Perm (n::c.list.filter fun m => m.key ≠ n.key) := by
  have herase : c.list.erase n = c.list.filter fun m => m.key ≠ n.key := by
    rw [(h.keys.of_map _).erase_eq_filter]
    apply filter_congr
    intro m hm
    rw [Bool.eq_iff_iff,bne_iff_ne,decide_eq_true_eq,not_iff_not]
    exact ⟨fun heq => heq ▸ rfl,h.eq_of_key hm hn⟩
  rw [← herase]
  exact perm_cons_erase hn

variable {list : List (CacheNode π)}

omit [DecidableEq π] in
lemma of_perm (hperm : list.Perm c.list) : Linked { c with list } where
  links := h.links.trans (hperm.map _).symm
  keys := (hperm.map _).nodup_iff.mpr h.keys
  addresses := (hperm.map _).nodup_iff.mpr h.addresses
  fresh n hn := h.fresh n (hperm.mem_iff.mp hn)
  sizes n hn := h.sizes n (hperm.mem_iff.mp hn)
  used := h.used.trans (hperm.map _).sum_eq.symm
  bounded := by
    have hsum : held { c with list } = c.held := (hperm.map _).sum_eq
    exact hsum ▸ h.bounded

omit [DecidableEq π] in
/-- Elements are taken off the list and the map by their keys. -/
lemma restrict (p : BlockCacheKey π → Bool) {used : ℕ}
    (hused : used = total CacheNode.size (c.list.filter fun n => p n.key)) :
    Linked { c with used, list := c.list.filter fun n => p n.key, map := c.map.filter fun f => p f.1 } where
  links := by
    have hfilter := h.links.filter fun f => p f.1
    rwa [filter_map] at hfilter
  keys := h.keys.sublist (filter_sublist.map _)
  addresses := h.addresses.sublist (filter_sublist.map _)
  fresh n hn := h.fresh n (mem_of_mem_filter hn)
  sizes n hn := h.sizes n (mem_of_mem_filter hn)
  used := hused
  bounded := (total_le_of_sublist filter_sublist).trans_lt h.bounded

lemma erase :
    (c.erase key).Linked ∧ (c.erase key).list = c.list.filter fun n => n.key ≠ key := by
  rw [BlockCache.erase,h.find_eq]
  cases hfind : c.list.find? fun n => n.key = key with
  | none =>
    refine ⟨h,(filter_eq_self.mpr fun n hn => ?_).symm⟩
    simpa using find?_eq_none.mp hfind n hn
  | some n =>
    have hn := mem_of_find?_eq_some hfind
    obtain rfl : n.key = key := by simpa using find?_some hfind
    have hheld : c.held = n.size+total CacheNode.size (c.list.filter fun m => m.key ≠ n.key) :=
      ((h.perm_cons hn).map CacheNode.size).sum_eq
    have hused : deduct c.used n.data.length = total CacheNode.size (c.list.filter fun m => m.key ≠ n.key) := by
      rw [h.used,← h.sizes n hn,deduct_eq (by omega) h.bounded]
      omega
    simp only [h.filter_address hn]
    exact ⟨h.restrict (fun k => k ≠ n.key) hused,trivial⟩

lemma pushFront {key : BlockCacheKey π} (data : Bytes) (hkey : key ∉ c.list.map CacheNode.key)
    (hfits : c.held+data.length<2^64) : (c.pushFront key data).Linked where
  links := by
    have hnames : key ∉ c.map.names := fun hk => hkey (h.names_perm.mem_iff.mp hk)
    simp only [BlockCache.pushFront,Directory.set,if_neg hnames,map_cons]
    exact (perm_append_singleton _ _).trans (h.links.cons _)
  keys := nodup_cons.mpr ⟨hkey,h.keys⟩
  addresses := by
    refine nodup_cons.mpr ⟨fun hmem => ?_,h.addresses⟩
    obtain ⟨n,hn,heq⟩ := mem_map.mp hmem
    exact (h.fresh n hn).ne heq
  fresh n hn := by
    rcases mem_cons.mp hn with rfl | hn
    · exact Nat.lt_succ_self _
    · exact (h.fresh n hn).trans (Nat.lt_succ_self _)
  sizes n hn := by
    rcases mem_cons.mp hn with rfl | hn
    · rfl
    · exact h.sizes n hn
  used := by
    have hused := h.used
    simp only [BlockCache.pushFront,held,total_cons] at hfits hused ⊢
    omega
  bounded := by
    simp only [BlockCache.pushFront,held,total_cons] at hfits ⊢
    omega

lemma popBack {last : CacheNode π} (hlist : c.list = list++[last]) :
    (c.popBack last).Linked ∧ (c.popBack last).list = list := by
  have hkeys := h.keys
  rw [hlist,map_append,map_cons,map_nil,nodup_append] at hkeys
  have hfilter : (c.list.filter fun n => n.key ≠ last.key) = list := by
    rw [hlist,filter_append,filter_eq_self.mpr fun n hn => ?_]
    · simp
    · simpa using hkeys.2.2 _ (mem_map_of_mem hn) last.key mem_cons_self
  have hdrop : c.list.dropLast = c.list.filter fun n => n.key ≠ last.key := by
    rw [hfilter,hlist,dropLast_concat]
  have hheld : c.held = total CacheNode.size list+last.size := by
    simp [held,hlist]
  have hused : deduct c.used last.size = total CacheNode.size (c.list.filter fun n => n.key ≠ last.key) := by
    rw [h.used,deduct_eq (by omega) h.bounded,hfilter]
    omega
  rw [BlockCache.popBack,hdrop]
  exact ⟨h.restrict (fun k => k ≠ last.key) hused,hfilter⟩

lemma evictLoop {fuel : ℕ} (hfuel : c.list.length≤fuel) :
    (evictLoop fuel c).Linked ∧ (evictLoop fuel c).list = fit CacheNode.size c.capacity c.list ∧
      (evictLoop fuel c).capacity = c.capacity := by
  induction fuel generalizing c with
  | zero =>
    have hnil : c.list = [] := length_eq_zero_iff.mp (Nat.le_zero.mp hfuel)
    rw [BlockCache.evictLoop,hnil]
    exact ⟨h,rfl,rfl⟩
  | succ fuel ih =>
    have hused := h.used
    rw [BlockCache.evictLoop]
    split
    · rename_i hlt
      rcases eq_nil_or_concat c.list with hnil | ⟨list,last,hlist⟩
      · rw [held,hnil] at hused
        simp only [total_nil] at hused
        omega
      · rw [concat_eq_append] at hlist
        obtain ⟨hlinked,hpop⟩ := h.popBack hlist
        have hlength : (c.popBack last).list.length≤fuel := by
          rw [hpop]
          simp only [hlist,length_append,length_cons,length_nil] at hfuel
          omega
        obtain ⟨hl,hfit,hcap⟩ := ih hlinked hlength
        have hcapacity : (c.popBack last).capacity = c.capacity := by rw [BlockCache.popBack]
        have htotal : c.capacity < total CacheNode.size (list++[last]) := by
          rw [← hlist,← held,← hused]
          exact hlt
        have hlast : c.list.getLast? = some last := by
          rw [hlist,getLast?_concat]
        rw [hpop,hcapacity] at hfit
        rw [hlast,hlist,fit_append_singleton htotal]
        exact ⟨hl,hfit,hcap.trans hcapacity⟩
    · rename_i hle
      have htotal : total CacheNode.size c.list ≤ c.capacity := by
        rw [← held,← hused]
        exact not_lt.mp hle
      exact ⟨h,(fit_of_total_le htotal).symm,rfl⟩

lemma get :
    c.list.find? (fun n => n.key = key) = none ∧ c.get key = (none,c) ∨
      ∃ n ∈ c.list, n.key = key ∧
        c.get key = (some n.data,{ c with list := n::c.list.filter fun m => m.key ≠ key }) := by
  rw [BlockCache.get,h.find_eq]
  cases hfind : c.list.find? fun n => n.key = key with
  | none => exact .inl ⟨rfl,rfl⟩
  | some n =>
    have hn := mem_of_find?_eq_some hfind
    obtain rfl : n.key = key := by simpa using find?_some hfind
    exact .inr ⟨n,hn,rfl,by simp only [h.filter_address hn]⟩

lemma put {data : Bytes} (hfits : c.held+data.length<2^64) :
    (c.put key data).Linked ∧ (c.put key data).capacity = c.capacity ∧
      (c.put key data).list = fit CacheNode.size c.capacity
        (⟨c.next,key,data,data.length⟩::c.list.filter fun n => n.key ≠ key) := by
  obtain ⟨hlinked,hlist⟩ := h.erase key
  have hsame : (c.erase key).capacity = c.capacity ∧ (c.erase key).next = c.next := by
    rw [BlockCache.erase]
    split
    · exact ⟨rfl,rfl⟩
    · exact ⟨rfl,rfl⟩
  have hkey : key ∉ (c.erase key).list.map CacheNode.key := by
    simp [hlist]
  have hheld : (c.erase key).held≤c.held := by
    rw [held,hlist]
    exact total_le_of_sublist filter_sublist
  obtain ⟨hl,hfit,hcap⟩ := (hlinked.pushFront data hkey (by omega)).evictLoop le_rfl
  refine ⟨hl,hcap.trans hsame.1,hfit.trans ?_⟩
  rw [BlockCache.pushFront,hlist,hsame.1,hsame.2]

lemma invalidatePath (path : π) : (c.invalidatePath path).Linked := by
  have hpart : c.held = total CacheNode.size (c.list.filter fun n => n.key.path = path)+
      total CacheNode.size (c.list.filter fun n => n.key.path ≠ path) := by
    have hperm := filter_append_perm (fun n : CacheNode π => decide (n.key.path = path)) c.list
    simpa [held,total] using (hperm.map CacheNode.size).sum_eq.symm
  have hmap : (c.list.filter fun n => n.key.path = path).foldl (fun map n => map.unlink n.key) c.map =
      c.map.filter fun f => f.1.path ≠ path := by
    rw [← foldl_map,Directory.foldl_unlink]
    apply filter_congr
    intro f hf
    obtain ⟨n,hn,rfl⟩ := mem_map.mp (h.links.mem_iff.mp hf)
    rw [decide_eq_decide,not_iff_not,mem_map]
    constructor
    · rintro ⟨m,hm,hkey⟩
      rw [← hkey]
      simpa using (mem_filter.mp hm).2
    · intro hpath
      exact ⟨n,mem_filter.mpr ⟨hn,by simpa using hpath⟩,rfl⟩
  have hused : (c.list.filter fun n => n.key.path = path).foldl (fun used n => deduct used n.size) c.used =
      total CacheNode.size (c.list.filter fun n => n.key.path ≠ path) := by
    rw [h.used,foldl_deduct (by omega) h.bounded]
    omega
  rw [BlockCache.invalidatePath]
  simp only [hmap]
  exact h.restrict (fun k => k.path ≠ path) hused

end Linked

/-- The list is in the order of use and has the data that was put last. -/
structure Traced (calls : List (Call π)) (list : List (CacheNode π)) : Prop where
  order : (list.map CacheNode.key).Pairwise (UsedAfter calls)
  last : ∀ n ∈ list, lastPut n.key calls = some n.data

lemma lastPut_concat (key : BlockCacheKey π) (calls : List (Call π)) (call : Call π) :
    lastPut key (calls++[call]) = (call.stores key).or (lastPut key calls) := by
  rw [lastPut,reverse_append,reverse_singleton,singleton_append,findSome?_cons]
  cases call.stores key <;> rfl

variable {calls : List (Call π)}

variable {a b : BlockCacheKey π}

omit [DecidableEq π] in
lemma usedAfter_now {call : Call π} (ha : call.uses = some a)
    (hne : a ≠ b) : UsedAfter (calls++[call]) a b := by
  refine ⟨calls,[call],rfl,⟨call,mem_cons_self,ha⟩,fun call' hcall => ?_⟩
  rw [mem_singleton.mp hcall,ha]
  exact fun heq => hne (Option.some.inj heq)

omit [DecidableEq π] in
lemma UsedAfter.later {call : Call π} (h : UsedAfter calls a b)
    (hb : call.uses ≠ some b) : UsedAfter (calls++[call]) a b := by
  obtain ⟨earlier,later,rfl,⟨call',hcall,ha⟩,hlater⟩ := h
  refine ⟨earlier,later++[call],append_assoc ..,⟨call',mem_append_left _ hcall,ha⟩,fun x hx => ?_⟩
  rcases mem_append.mp hx with hx | hx
  · exact hlater x hx
  · rwa [mem_singleton.mp hx]

namespace Traced
variable {calls : List (Call π)} {list list' : List (CacheNode π)}

lemma sublist (h : Traced calls list) (hsub : list'.Sublist list) : Traced calls list' :=
  ⟨h.order.sublist (hsub.map _),fun n hn => h.last n (hsub.subset hn)⟩

lemma later (h : Traced calls list) (call : Call π) (hkeys : ∀ n ∈ list, call.uses ≠ some n.key) :
    Traced (calls++[call]) list := by
  refine ⟨h.order.imp_of_mem fun _ hb hab => ?_,fun n hn => ?_⟩
  · obtain ⟨n,hn,rfl⟩ := mem_map.mp hb
    exact hab.later (hkeys n hn)
  · have hstores : call.stores n.key = none := by
      cases call with
      | put key data => exact if_neg fun heq => hkeys n hn (congrArg some heq)
      | get key | invalidatePath path => rfl
    rw [lastPut_concat,hstores,Option.none_or,h.last n hn]

/-- The element with the key comes to the front. -/
lemma front (h : Traced calls list) {call : Call π} {n : CacheNode π} (hn : call.uses = some n.key)
    (hlast : lastPut n.key (calls++[call]) = some n.data) :
    Traced (calls++[call]) (n::list.filter fun m => m.key ≠ n.key) := by
  have hkeys : ∀ m ∈ list.filter (fun m => m.key ≠ n.key), m.key ≠ n.key := fun m hm => by
    simpa using (mem_filter.mp hm).2
  have hrest := (h.sublist filter_sublist).later call fun m hm => by
    rw [hn]
    exact fun heq => hkeys m hm (Option.some.inj heq).symm
  constructor
  · refine pairwise_cons.mpr ⟨fun b hb => ?_,hrest.order⟩
    obtain ⟨m,hm,rfl⟩ := mem_map.mp hb
    exact usedAfter_now hn (hkeys m hm).symm
  · intro m hm
    rcases mem_cons.mp hm with rfl | hm
    · exact hlast
    · exact hrest.last m hm

end Traced

/-- The cache keeps the last data of the keys that were used last, as many of them as fit. -/
structure IsLru (capacity : ℕ) (calls : List (Call π)) (c : BlockCache π) : Prop where
  nodup : c.entries.names.Nodup
  sameKeys : c.map.names.Perm c.entries.names
  iterators : ∀ key it, c.map.get key = some it → ∃ n, c.deref it = some n ∧ n.key = key
  used : c.used = total (fun e => e.2.length) c.entries
  bounded : c.used≤capacity
  order : c.entries.names.Pairwise (UsedAfter calls)
  last : ∀ e ∈ c.entries, lastPut e.1 calls = some e.2
  get : ∀ key data, (c.get key).1 = some data ↔ (key,data) ∈ c.entries
  get_perm : ∀ key, (c.get key).2.entries.Perm c.entries
  put : ∀ key data, c.used+data.length<2^64 → ∀ p, p <+: (c.put key data).entries ↔
    p <+: (key,data)::c.entries.unlink key ∧ total (fun e => e.2.length) p ≤ capacity
  invalidatePath : ∀ path, (c.invalidatePath path).entries = c.entries.filter fun e => e.1.path ≠ path

omit [DecidableEq π] in
lemma names_entries (c : BlockCache π) : c.entries.names = c.list.map CacheNode.key := by
  simp [entries,Directory.names]

lemma Reached.invariant {capacity : ℕ} (h : Reached capacity calls c) :
    c.Linked ∧ c.capacity = capacity ∧ c.held≤capacity ∧ Traced calls c.list := by
  induction h with
  | init =>
    have hlinked : (BlockCache.init capacity : BlockCache π).Linked := by
      constructor <;> simp [BlockCache.init,held]
    exact ⟨hlinked,rfl,Nat.zero_le _,by constructor <;> simp [BlockCache.init]⟩
  | @step calls c call _ hfits ih =>
    obtain ⟨hlinked,hcapacity,hheld,htraced⟩ := ih
    cases call with
    | get key =>
      rw [BlockCache.step]
      rcases hlinked.get key with ⟨hnone,hget⟩ | ⟨n,hn,rfl,hget⟩
      · rw [hget]
        refine ⟨hlinked,hcapacity,hheld,htraced.later _ fun n hn heq => ?_⟩
        exact find?_eq_none.mp hnone n hn (by simpa using (Option.some.inj heq).symm)
      · have hperm := (hlinked.perm_cons hn).symm
        rw [hget]
        refine ⟨hlinked.of_perm hperm,hcapacity,?_,htraced.front rfl ?_⟩
        · exact (hperm.map CacheNode.size).sum_eq.trans_le hheld
        · rw [lastPut_concat]
          exact htraced.last n hn
    | put key data =>
      obtain ⟨hl,hcap,hlist⟩ := hlinked.put key hfits
      refine ⟨hl,hcap.trans hcapacity,?_,?_⟩
      · rw [BlockCache.step,held,hlist,← hcapacity]
        exact total_fit_le
      · rw [BlockCache.step,hlist]
        refine Traced.sublist (htraced.front (n := ⟨c.next,key,data,data.length⟩) rfl ?_) fit_prefix.sublist
        rw [lastPut_concat,Call.stores,if_pos rfl,Option.some_or]
    | invalidatePath path =>
      have hsub : (c.invalidatePath path).list.Sublist c.list := filter_sublist
      refine ⟨hlinked.invalidatePath path,hcapacity,(total_le_of_sublist hsub).trans hheld,?_⟩
      exact (htraced.sublist hsub).later _ fun n _ => by simp [Call.uses]

/-- After any calls the cache holds what an LRU cache of its capacity holds. -/
theorem isLru_of_reached {capacity : ℕ} {calls : List (Call π)} (h : Reached capacity calls c) :
    IsLru capacity calls c := by
  obtain ⟨hlinked,rfl,hheld,htraced⟩ := h.invariant
  have hsize : ∀ n ∈ c.list, n.data.length = n.size := fun n hn => (hlinked.sizes n hn).symm
  constructor
  · rw [names_entries]
    exact hlinked.keys
  · rw [names_entries]
    exact hlinked.names_perm
  · intro key it hget
    rw [hlinked.get_map_eq] at hget
    obtain ⟨n,hfind,rfl⟩ := Option.map_eq_some_iff.mp hget
    exact ⟨n,hlinked.deref_eq (mem_of_find?_eq_some hfind),by simpa using find?_some hfind⟩
  · rw [hlinked.used,entries,total_map (fun e : BlockCacheKey π × Bytes => e.2.length) hsize]
    rfl
  · exact hlinked.used.trans_le hheld
  · rw [names_entries]
    exact htraced.order
  · intro e he
    obtain ⟨n,hn,rfl⟩ := mem_map.mp he
    exact htraced.last n hn
  · intro key data
    rw [entries,mem_map]
    rcases hlinked.get key with ⟨hnone,hget⟩ | ⟨n,hn,rfl,hget⟩
    · rw [hget]
      refine iff_of_false (by simp) ?_
      rintro ⟨n,hn,heq⟩
      exact find?_eq_none.mp hnone n hn (by simpa using congrArg Prod.fst heq)
    · rw [hget,Option.some.injEq]
      constructor
      · rintro rfl
        exact ⟨n,hn,rfl⟩
      · rintro ⟨m,hm,heq⟩
        rw [Prod.mk.injEq] at heq
        rw [← heq.2,hlinked.eq_of_key hm hn heq.1]
  · intro key
    rcases hlinked.get key with ⟨-,hget⟩ | ⟨n,hn,rfl,hget⟩
    · rw [hget]
    · rw [hget]
      exact (hlinked.perm_cons hn).symm.map _
  · intro key data hfits p
    rw [hlinked.used] at hfits
    have hlist := (hlinked.put key hfits).2.2
    have hfront : (key,data)::c.entries.unlink key =
        ((⟨c.next,key,data,data.length⟩::c.list.filter fun n => n.key ≠ key).map fun n => (n.key,n.data)) := by
      rw [map_cons,entries,Directory.unlink,filter_map]
      rfl
    rw [entries,hlist,← fit_map fun e : BlockCacheKey π × Bytes => e.2.length,prefix_fit_iff,hfront]
    intro n hn
    rcases mem_cons.mp hn with rfl | hn
    · rfl
    · exact hsize n (mem_of_mem_filter hn)
  · intro path
    rw [entries,entries,filter_map]
    rfl

/-- Of two blocks that do not fit together the second one stays. -/
theorem isLru_of_eviction : IsLru 3 [.put ⟨0,0⟩ [1,2],.put ⟨0,8⟩ [3,4]]
    (((init 3 : BlockCache ℕ).put ⟨0,0⟩ [1,2]).put ⟨0,8⟩ [3,4]) := by
  refine isLru_of_reached ?_
  have hfirst : Reached 3 [.put ⟨0,0⟩ [1,2]] ((init 3 : BlockCache ℕ).put ⟨0,0⟩ [1,2]) :=
    Reached.step (.put ⟨0,0⟩ [1,2]) .init (by decide)
  exact Reached.step (.put ⟨0,8⟩ [3,4]) hfirst (by decide)

end BlockCache
end TitanKV.Minikv
