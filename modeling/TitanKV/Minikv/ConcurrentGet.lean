import TitanKV.Minikv.KeyDescent

/-! `get` beside the flush thread and the compaction thread. The reader takes its pointers under the
lock and no lock after that: it asks for the files of one level after the other and opens them one by
one, while tables are listed, retracted and unlinked. -/
namespace TitanKV.Minikv
open List Option ThreadEvent Threads Runs

/-- Where `get` is: MemTables still to ask, the next level to list, listed files still to open. -/
inductive Reader
  | idle
  | probing (key : Bytes) (tables : List MemTableRef)
  | descending (key : Bytes) (level : ℕ)
  | opening (key : Bytes) (level : ℕ) (paths : List TablePath)
  | returned (result : Except Status Bytes)

structure Race where
  threads : Threads
  reader : Reader

inductive RaceEvent
  | background (e : ThreadEvent)
  | get (key : Bytes)
  | read

namespace Reader

/-- A reader that holds the pointer of the active MemTable sees what is written to it. -/
def refresh (m : MemTableRef) : Reader → Reader
  | probing key tables => .probing key (tables.map fun x => if x.id = m.id then m else x)
  | r => r

/-- A file that cannot be opened is passed over. -/
def step (db : DBImpl) : Reader → Option Reader
  | idle | returned _ => none
  | probing key [] => some (.descending key 0)
  | probing key (m::tables) =>
    match m.table.get key db.seq with
    | some v => some (.returned (.ok v))
    | none => some (.probing key tables)
  | descending key level =>
    if db.options.maxLevel<level then some (.returned (.error .NotFound))
    else some (.opening key level (db.version.getLevelFiles level))
  | opening key level [] => some (.descending key (level+1))
  | opening key level (path::paths) =>
    match (db.disk.reader path).bind fun reader => reader.get key with
    | some v => some (.returned (.ok v))
    | none => some (.opening key level paths)

lemma ne_idle_of_step {db : DBImpl} {r r' : Reader} (h : r.step db = some r') : r' ≠ .idle := by
  rintro rfl
  cases r with
  | idle | returned result => cases h
  | probing key tables =>
    cases tables with
    | nil => cases h
    | cons m tables =>
      rw [step] at h
      split at h <;> cases h
  | descending key level =>
    rw [step] at h
    split at h <;> cases h
  | opening key level paths =>
    cases paths with
    | nil => cases h
    | cons path paths =>
      rw [step] at h
      split at h <;> cases h

end Reader

/-- The pointers `get` takes: the active MemTable, then the frozen ones from the newest. -/
def DBImpl.pointers (db : DBImpl) : List MemTableRef := db.memtable::db.immutableList.reverse

namespace Race

def step (s : Race) : RaceEvent → Option Race
  | .background e => (s.threads.step e).map fun threads =>
    { threads := threads
      reader := match e with
        | .write group => s.reader.refresh (s.threads.db.written group)
        | _ => s.reader }
  | .get key =>
    match s.reader with
    | .idle => some { s with reader := .probing key s.threads.db.pointers }
    | _ => none
  | .read => (s.reader.step s.threads.db).map fun reader => { s with reader := reader }

end Race

/-- What is left of the way of the reader still leads past the key. -/
def Reader.Safe (s : Threads) (k v : Bytes) : Reader → Prop
  | idle => True
  | probing key tables => key = k ∧
    (∀ m ∈ tables, Only k v m.table.chain ∧ m.id<s.db.nextId ∧ (m.id = s.db.memtable.id → m = s.db.memtable)) ∧
    ((∃ m ∈ tables, Shows k m.table.chain) ∨ s.db.Below k 0)
  | descending key level => key = k ∧ s.db.Below k level
  | opening key level paths => key = k ∧
    (∀ path ∈ paths, path.level = level ∧ path.number<s.db.version.nextFileNumber ∧
      s.flusher.target ≠ some path ∧ s.compactor.target ≠ some path ∧ Only k v (s.db.disk.entriesOf path)) ∧
    ((∃ path ∈ paths, Shows k (s.db.disk.entriesOf path)) ∨ s.db.Below k (level+1))
  | returned result => result = .ok v

namespace Reader.Safe
variable {s s' : Threads} {k v : Bytes} {r r' : Reader}

lemma moves (h : r.Safe s k v) (hm : Moves s s' k) (hprobing : ∀ key tables, r ≠ .probing key tables) :
    r.Safe s' k v := by
  cases r with
  | idle => trivial
  | probing key tables => exact (hprobing key tables rfl).elim
  | descending key level => exact ⟨h.1,hm.below level h.2⟩
  | opening key level paths =>
    obtain ⟨hkey,hpaths,hway⟩ := h
    refine ⟨hkey,?_,?_⟩
    · intro path hpath
      obtain ⟨hlevel,hnumber,hf,hc,honly⟩ := hpaths path hpath
      refine ⟨hlevel,hnumber.trans_le hm.next,hm.flusher path hnumber hf,hm.compactor path hnumber hc,?_⟩
      rcases hm.files path hf hc with heq | ⟨hnil,-⟩
      · rwa [heq]
      · rw [hnil]
        exact fun e he => by cases he
    · rcases hway with ⟨path,hpath,hshows⟩ | hbelow
      · obtain ⟨hlevel,-,hf,hc,-⟩ := hpaths path hpath
        rcases hm.files path hf hc with heq | ⟨-,hdeeper⟩
        · exact .inl ⟨path,hpath,heq ▸ hshows⟩
        · exact .inr (hlevel ▸ hdeeper hshows)
      · exact .inr (hm.below _ hbelow)
  | returned result => exact h

lemma advances (h : r.Safe s k v) (hadv : Advances s s' k v) : r.Safe s' k v := by
  cases r with
  | probing key tables =>
    obtain ⟨hkey,htables,hway⟩ := h
    refine ⟨hkey,?_,hway.imp_right (hadv.moves.below 0)⟩
    rw [hadv.memtable,hadv.nextId]
    exact htables
  | _ => exact h.moves hadv.moves (fun _ _ heq => by cases heq)

lemma write (h : r.Safe s k v) (hsafe : s.Safe k v) {group : WriteGroup}
    (hops : ∀ op ∈ group.flatten, op.key = k → op = ⟨.put,k,v⟩) :
    (r.refresh (s.db.written group)).Safe { s with db := s.db.doWriteGroup group } k v := by
  have hmoves := (hsafe.write hops).2.1
  cases r with
  | probing key tables =>
    obtain ⟨hkey,htables,hway⟩ := h
    have hid : (s.db.written group).id = s.db.memtable.id := s.db.written_id group
    refine ⟨hkey,?_,?_⟩
    · intro x hx
      obtain ⟨m,hm,rfl⟩ := mem_map.mp hx
      obtain ⟨honly,hnext,hsame⟩ := htables m hm
      have hnew : Only k v (s.db.written group).table.chain := by
        rw [written_table]
        exact only_putOps hsafe.only.memtable hops
      rcases (s.db.wrote_doWriteGroup group).frozen with ⟨hmem,hnextId,-⟩ | ⟨hmem,hnextId,-⟩
      · rw [hmem,hnextId]
        split
        · exact ⟨hnew,hid ▸ hsafe.tidy.db.nextId,fun _ => rfl⟩
        · rename_i hne
          exact ⟨honly,hnext,fun heq => (hne heq).elim⟩
      · rw [hmem,hnextId]
        split
        · have hlt := hid ▸ hsafe.tidy.db.nextId
          exact ⟨hnew,hlt.trans (Nat.lt_succ_self _),fun heq => (hlt.ne heq).elim⟩
        · exact ⟨honly,hnext.trans (Nat.lt_succ_self _),fun heq => (hnext.ne heq).elim⟩
    · refine hway.imp ?_ (hmoves.below 0)
      rintro ⟨m,hm,hshows⟩
      refine ⟨_,mem_map_of_mem hm,?_⟩
      split
      · rename_i heq
        rw [written_table,shows_putOps]
        rw [(htables m hm).2.2 (heq.trans hid)] at hshows
        exact .inl hshows
      · exact hshows
  | _ => exact h.moves hmoves (fun _ _ heq => by cases heq)

lemma pointers (hsafe : s.Safe k v) (hstored : s.db.Stored k) : (Reader.probing k s.db.pointers).Safe s k v := by
  refine ⟨rfl,?_,?_⟩
  · intro m hm
    rcases mem_cons.mp hm with rfl | hm
    · exact ⟨hsafe.only.memtable,hsafe.tidy.db.nextId,fun _ => rfl⟩
    · have hfrozen := mem_reverse.mp hm
      have hlt := hsafe.tidy.db.older m hfrozen
      exact ⟨hsafe.only.frozen m hfrozen,hlt.trans hsafe.tidy.db.nextId,fun heq => (hlt.ne heq).elim⟩
  · rcases hstored with hs | ⟨m,hm,hs⟩ | hs
    · exact .inl ⟨_,mem_cons_self,hs⟩
    · exact .inl ⟨m,mem_cons_of_mem _ (mem_reverse.mpr hm),hs⟩
    · exact .inr hs

theorem read (h : r.Safe s k v) (hsafe : s.Safe k v) (hstep : r.step s.db = some r') : r'.Safe s k v := by
  cases r with
  | idle | returned result => cases hstep
  | probing key tables =>
    obtain ⟨rfl,htables,hway⟩ := h
    cases tables with
    | nil =>
      obtain rfl := some.inj hstep
      exact ⟨rfl,hway.resolve_left (by simp)⟩
    | cons m tables =>
      by_cases hshows : Shows key m.table.chain
      · have hget : m.table.get key s.db.seq = some v :=
          lookup_of_shows m.table.ascending (htables m (by simp)).1 hshows
        simp only [step,hget,some.injEq] at hstep
        subst hstep
        rfl
      · have hget : m.table.get key s.db.seq = none := lookup_of_not_shows m.table.ascending hshows
        simp only [step,hget,some.injEq] at hstep
        subst hstep
        refine ⟨rfl,fun x hx => htables x (by simp [hx]),hway.imp_left fun hex => ?_⟩
        simpa [hshows] using hex
  | descending key level =>
    obtain ⟨rfl,i,hi,hmax,path,hpath,hshows⟩ := h
    rw [step,if_neg (by omega)] at hstep
    obtain rfl := some.inj hstep
    have hplaced := hsafe.tidy.db.placed
    refine ⟨rfl,?_,?_⟩
    · intro p hp
      obtain ⟨hlevel,hnumber⟩ := hplaced.of_mem hp
      exact ⟨hlevel,hnumber,fun ht => (hsafe.tidy.flusher.target_level ht).1.ne hplaced hp rfl,
        fun ht => (hsafe.tidy.compactor.target_level ht).1.ne hplaced hp rfl,hsafe.only.files level p hp⟩
    · rcases hi.lt_or_eq with hlt | rfl
      · exact .inr ⟨i,hlt,hmax,path,hpath,hshows⟩
      · exact .inl ⟨path,hpath,hshows⟩
  | opening key level paths =>
    obtain ⟨rfl,hpaths,hway⟩ := h
    cases paths with
    | nil =>
      obtain rfl := some.inj hstep
      exact ⟨rfl,hway.resolve_left (by simp)⟩
    | cons path paths =>
      have hasc := s.db.disk.ascending_entriesOf path
      by_cases hshows : Shows key (s.db.disk.entriesOf path)
      · have hget := lookup_of_shows hasc (hpaths path (by simp)).2.2.2.2 hshows
        rw [← Disk.bind_get_eq] at hget
        simp only [step,hget,some.injEq] at hstep
        subst hstep
        rfl
      · have hget := lookup_of_not_shows hasc hshows
        rw [← Disk.bind_get_eq] at hget
        simp only [step,hget,some.injEq] at hstep
        subst hstep
        refine ⟨rfl,fun x hx => hpaths x (by simp [hx]),hway.imp_left fun hex => ?_⟩
        simpa [hshows] using hex

end Reader.Safe
def DBImpl.searchFrom (db : DBImpl) (key : Bytes) (level : ℕ) : Option Bytes :=
  (range' level (db.options.maxLevel+1-level)).findSome? fun level =>
    (db.version.getLevelFiles level).findSome? fun path => (db.disk.reader path).bind fun reader => reader.get key

namespace Race
variable {s s' : Race} {k v : Bytes}

/-- The reader gets there by itself. -/
def Reaches (s : Race) (r : Reader) : Prop :=
  ∃ n, run step s (replicate n .read) = some { s with reader := r }

lemma Reaches.head {r r' : Reader} (hstep : s.reader.step s.threads.db = some r)
    (h : Reaches { s with reader := r } r') : s.Reaches r' := by
  obtain ⟨n,hn⟩ := h
  refine ⟨n+1,?_⟩
  rw [replicate_succ,run,step,hstep]
  exact hn

lemma reaches_self (s : Race) : s.Reaches s.reader := ⟨0,rfl⟩

variable (t : Threads)

lemma reaches_opening (key : Bytes) (level : ℕ) (paths : List TablePath)
    (hnext : Reaches ⟨t,.descending key (level+1)⟩ (.returned (answer (t.db.searchFrom key (level+1))))) :
    Reaches ⟨t,.opening key level paths⟩ (.returned (answer
      ((paths.findSome? fun path => (t.db.disk.reader path).bind fun reader => reader.get key).or
        (t.db.searchFrom key (level+1))))) := by
  induction paths with
  | nil => exact Reaches.head rfl hnext
  | cons path paths ih =>
    cases hget : (t.db.disk.reader path).bind fun reader => reader.get key with
    | some v =>
      rw [findSome?_cons,hget]
      refine Reaches.head (r := .returned (.ok v)) ?_ (reaches_self _)
      simp only [Reader.step,hget]
    | none =>
      rw [findSome?_cons,hget]
      refine Reaches.head (r := .opening key level paths) ?_ ih
      simp only [Reader.step,hget]

lemma reaches_descending (key : Bytes) (level : ℕ) :
    Reaches ⟨t,.descending key level⟩ (.returned (answer (t.db.searchFrom key level))) := by
  -- by induction on the number of levels that are left
  induction hleft : t.db.options.maxLevel+1-level generalizing level with
  | zero =>
    refine Reaches.head (r := .returned (.error .NotFound)) ?_ ?_
    · have hlt : t.db.options.maxLevel<level := by omega
      rw [Reader.step,if_pos hlt]
    · rw [DBImpl.searchFrom,hleft]
      exact reaches_self _
  | succ n ih =>
    refine Reaches.head (r := .opening key level (t.db.version.getLevelFiles level)) ?_ ?_
    · have hle : ¬t.db.options.maxLevel<level := by omega
      rw [Reader.step,if_neg hle]
    · have hsearch : t.db.searchFrom key level = ((t.db.version.getLevelFiles level).findSome? fun path =>
          (t.db.disk.reader path).bind fun reader => reader.get key).or (t.db.searchFrom key (level+1)) := by
        rw [DBImpl.searchFrom,hleft,range'_succ,findSome?_cons,DBImpl.searchFrom,
          show t.db.options.maxLevel+1-(level+1) = n by omega]
        cases (t.db.version.getLevelFiles level).findSome? _ <;> rfl
      rw [hsearch]
      exact reaches_opening t key level _ (ih (level+1) (by omega))

lemma reaches_probing (key : Bytes) (tables : List MemTableRef) :
    Reaches ⟨t,.probing key tables⟩ (.returned (answer
      ((tables.findSome? fun m => m.table.get key t.db.seq).or (t.db.searchFrom key 0)))) := by
  induction tables with
  | nil => exact Reaches.head rfl (reaches_descending t key 0)
  | cons m tables ih =>
    cases hget : m.table.get key t.db.seq with
    | some v =>
      rw [findSome?_cons,hget]
      refine Reaches.head (r := .returned (.ok v)) ?_ (reaches_self _)
      simp only [Reader.step,hget]
    | none =>
      rw [findSome?_cons,hget]
      refine Reaches.head (r := .probing key tables) ?_ ih
      simp only [Reader.step,hget]

theorem reaches_get (key : Bytes) :
    Reaches ⟨t,.probing key t.db.pointers⟩ (.returned (t.db.get key)) := by
  have hget : t.db.get key = answer ((t.db.pointers.findSome? fun m => m.table.get key t.db.seq).or
      (t.db.searchFrom key 0)) := by
    rw [DBImpl.get,DBImpl.pointers,findSome?_cons,DBImpl.searchFrom,Nat.sub_zero,← range_eq_range']
    cases t.db.memtable.table.get key t.db.seq with
    | some v => rfl
    | none =>
      cases t.db.immutableList.reverse.findSome? fun m => m.table.get key t.db.seq with
      | some v => rfl
      | none =>
        generalize (range (t.db.options.maxLevel+1)).findSome? _ = found
        cases found <;> rfl
  rw [hget]
  exact reaches_probing t key t.db.pointers

lemma exists_reaches_returned (s : Race) (hidle : s.reader ≠ .idle) : ∃ result, s.Reaches (.returned result) := by
  obtain ⟨t,r⟩ := s
  cases r with
  | idle => exact (hidle rfl).elim
  | probing key tables => exact ⟨_,reaches_probing t key tables⟩
  | descending key level => exact ⟨_,reaches_descending t key level⟩
  | opening key level paths => exact ⟨_,reaches_opening t key level paths (reaches_descending t key (level+1))⟩
  | returned result => exact ⟨_,reaches_self _⟩

end Race

def ThreadEvent.ops : ThreadEvent → List BatchOp
  | write group => group.flatten
  | _ => []

def RaceEvent.ops : RaceEvent → List BatchOp
  | background e => e.ops
  | _ => []

namespace Race
variable {s s' : Race} {k v : Bytes}

lemma background (hk : k ≠ []) (h : s.threads.Safe k v) {e : ThreadEvent}
    (hops : ∀ op ∈ e.ops, op.key = k → op = ⟨.put,k,v⟩) (hstep : s.step (.background e) = some s') :
    s'.threads.Safe k v ∧
      (s.threads.db.Stored k ∨ (∃ op ∈ e.ops, op.key = k) → s'.threads.db.Stored k) ∧
      (s.reader.Safe s.threads k v → s'.reader.Safe s'.threads k v) ∧ (s.reader = .idle ↔ s'.reader = .idle) := by
  obtain ⟨t,ht,rfl⟩ := map_eq_some_iff.mp hstep
  cases e with
  | write group =>
    obtain rfl := some.inj ht
    obtain ⟨hsafe,-,hstored⟩ := h.write hops
    refine ⟨hsafe,hstored,fun hr => hr.write h hops,?_⟩
    cases s.reader <;> simp [Reader.refresh]
  | flush =>
    have hadv := h.flush ht
    exact ⟨hadv.safe,fun hs => hadv.stored (hs.resolve_right (by simp [ops])),fun hr => hr.advances hadv,Iff.rfl⟩
  | merge level =>
    have hadv := h.merge ht
    exact ⟨hadv.safe,fun hs => hadv.stored (hs.resolve_right (by simp [ops])),fun hr => hr.advances hadv,Iff.rfl⟩
  | compact =>
    have hadv := h.compact hk ht
    exact ⟨hadv.safe,fun hs => hadv.stored (hs.resolve_right (by simp [ops])),fun hr => hr.advances hadv,Iff.rfl⟩

lemma run_background (hk : k ≠ []) (h : s.threads.Safe k v) (hidle : s.reader = .idle) {before : List ThreadEvent}
    (hops : ∀ op ∈ before.flatMap ops, op.key = k → op = ⟨.put,k,v⟩)
    (hput : s.threads.db.Stored k ∨ ∃ op ∈ before.flatMap ops, op.key = k)
    (hrun : run step s (before.map .background) = some s') :
    s'.threads.Safe k v ∧ s'.reader = .idle ∧ s'.threads.db.Stored k := by
  induction before generalizing s with
  | nil =>
    obtain rfl := some.inj hrun
    exact ⟨h,hidle,hput.resolve_right (by simp)⟩
  | cons e before ih =>
    obtain ⟨t,ht,hrest⟩ := bind_eq_some_iff.mp hrun
    obtain ⟨hsafe,hstored,-,hstill⟩ :=
      background hk h (fun op hop => hops op (mem_append_left _ hop)) ht
    refine ih hsafe (hstill.mp hidle) (fun op hop => hops op (mem_append_right _ hop)) ?_ hrest
    rcases hput with hs | ⟨op,hop,hkey⟩
    · exact .inl (hstored (.inl hs))
    · rcases mem_append.mp hop with hop | hop
      · exact .inl (hstored (.inr ⟨op,hop,hkey⟩))
      · exact .inr ⟨op,hop,hkey⟩

/-- The reader is on its way, and what it can still come to is safe. -/
structure Reading (k v : Bytes) (s : Race) : Prop where
  threads : s.threads.Safe k v
  reader : s.reader.Safe s.threads k v
  busy : s.reader ≠ .idle

lemma Reading.step (hk : k ≠ []) {e : RaceEvent} (h : Reading k v s)
    (hops : ∀ op ∈ e.ops, op.key = k → op = ⟨.put,k,v⟩) (hstep : s.step e = some s') : Reading k v s' := by
  cases e with
  | background e =>
    obtain ⟨hsafe,-,hreader,hstill⟩ := background hk h.threads hops hstep
    exact ⟨hsafe,hreader h.reader,fun hidle => h.busy (hstill.mpr hidle)⟩
  | get key =>
    cases hr : s.reader with
    | idle => exact (h.busy hr).elim
    | _ => simp [Race.step,hr] at hstep
  | read =>
    obtain ⟨r,hr,rfl⟩ := map_eq_some_iff.mp hstep
    exact ⟨h.threads,h.reader.read h.threads hr,Reader.ne_idle_of_step hr⟩

lemma Reading.run (hk : k ≠ []) {after : List RaceEvent} (h : Reading k v s)
    (hops : ∀ op ∈ after.flatMap RaceEvent.ops, op.key = k → op = ⟨.put,k,v⟩)
    (hrun : run Race.step s after = some s') : Reading k v s' :=
  invariant (fun _ _ _ h hops hstep => Reading.step hk h hops hstep)
    (meets_of_forall fun e he _ op hop => hops op (mem_flatMap.mpr ⟨e,he,hop⟩)) hrun h

/-- Every operation on the key, in the files or written later, is the put of `v`, and it was there before
`get` began: `get` returns `v`. -/
theorem get_of_put (options : Options) (d : Disk) (hnamed : d.Named) (k v : Bytes) (hk : k ≠ [])
    (before : List ThreadEvent) (after : List RaceEvent) (honly : (DBImpl.recover options d).OnlyPut k v)
    (hops : ∀ op ∈ before.flatMap ops ++ after.flatMap RaceEvent.ops, op.key = k → op = ⟨.put,k,v⟩)
    (hput : (DBImpl.recover options d).Stored k ∨ ∃ op ∈ before.flatMap ops, op.key = k) (s : Race)
    (hrun : run step ⟨opened options d,.idle⟩ (before.map .background ++ .get k::after) = some s) :
    (∀ result, s.reader = .returned result → result = .ok v) ∧ s.Reaches (.returned (.ok v)) := by
  have hopened : (opened options d).Safe k v := ⟨Tidy.opened hnamed options,honly,trivial,trivial⟩
  rw [run_append] at hrun
  obtain ⟨t,hbefore,hrun⟩ := bind_eq_some_iff.mp hrun
  obtain ⟨hsafe,hidle,hstored⟩ := run_background hk hopened rfl
    (fun op hop => hops op (mem_append_left _ hop)) hput hbefore
  obtain ⟨u,hget,hafter⟩ := bind_eq_some_iff.mp hrun
  rw [step,hidle] at hget
  obtain rfl := some.inj hget
  have hbegun : Reading k v { t with reader := .probing k t.threads.db.pointers } :=
    ⟨hsafe,Reader.Safe.pointers hsafe hstored,fun heq => by cases heq⟩
  have hreading := hbegun.run hk (fun op hop => hops op (mem_append_right _ hop)) hafter
  have hreturned : ∀ result, s.reader = .returned result → result = .ok v := by
    intro result hresult
    have hreader := hreading.reader
    rw [hresult] at hreader
    exact hreader
  refine ⟨hreturned,?_⟩
  -- left alone from here, the reader returns, and then it must be the value
  obtain ⟨result,n,hn⟩ := s.exists_reaches_returned hreading.busy
  have hlast := (hreading.run hk (by simp [RaceEvent.ops]) hn).reader
  obtain rfl : result = .ok v := hlast
  exact ⟨n,hn⟩

/-- The reader has listed level 0 when the only file there is merged away and unlinked. -/
theorem get_of_put_while_merging : ∃ s, run step ⟨opened ⟨1,6⟩ ⟨[],[],⟨none,none,none⟩⟩,.idle⟩
    (([.write [[⟨.put,[1],[7]⟩]],.flush,.flush,.flush,.flush,.flush] : List ThreadEvent).map .background ++
      .get [1]::([.read,.read,.read,.background (.merge 0)] ++ replicate 7 (.background .compact) ++ [.read])) =
        some s ∧ s.Reaches (.returned (.ok [7])) := by
  obtain ⟨s,hs⟩ := isSome_iff_exists.mp (by decide +kernel :
    (run step ⟨opened ⟨1,6⟩ ⟨[],[],⟨none,none,none⟩⟩,.idle⟩
      (([.write [[⟨.put,[1],[7]⟩]],.flush,.flush,.flush,.flush,.flush] : List ThreadEvent).map .background ++
        .get [1]::([.read,.read,.read,.background (.merge 0)] ++ replicate 7 (.background .compact) ++
          [.read]))).isSome = true)
  have hfiles : ∀ i, filesAt (Disk.listed ⟨[],[],⟨none,none,none⟩⟩) i = [] :=
    fun i => filesAt_replicate 8 i
  refine ⟨s,hs,(get_of_put _ _ ?_ [1] [7] (by decide) _ _ ?_ ?_ (.inr ?_) s hs).2⟩
  · intro i m hm
    rw [hfiles] at hm
    cases hm
  · refine ⟨fun e he => (by cases he),fun m hm => (by cases hm),fun i path hpath => ?_⟩
    rw [Version.getLevelFiles,DBImpl.filesAt_recover,hfiles] at hpath
    cases hpath
  · decide
  · decide

end Race
end TitanKV.Minikv
