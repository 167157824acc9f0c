import TitanKV.Minikv.Effect
import TitanKV.Minikv.Threads

/-! The database over many sessions, each ended by a crash, with a ledger of when things were written.
The ledger is not part of the program: it follows every operation from the WAL to the tables. -/
namespace TitanKV.Minikv

/-- An operation and when it was written, counted in operations. -/
structure Stamped where
  op : BatchOp
  time : ℕ

/-- Stamps for operations that are written one after the other. -/
def stamp (clock : ℕ) (ops : List BatchOp) : List Stamped := (ops.zipIdx clock).map fun p => ⟨p.1,p.2⟩

/-- `logs` are the operations of a WAL file as far as they are in a MemTable, `ages` says when the
newest version of a key in a table was written, and a key is `outdated` in a table that was merged with
one that held a newer version while it is listed still. -/
structure Ledger where
  clock : ℕ
  logs : ℕ → List Stamped
  ages : TablePath → Bytes → ℕ
  outdated : TablePath → Bytes → Bool

namespace Ledger

def blank : Ledger := ⟨0,fun _ => [],fun _ _ => 0,fun _ _ => false⟩

variable (l : Ledger)

def times (k : Bytes) (wals : List ℕ) : List ℕ :=
  ((wals.flatMap l.logs).filter fun s => s.op.key = k).map Stamped.time

def append (wal : ℕ) (ops : List BatchOp) : Ledger :=
  { l with
    clock := l.clock+ops.length
    logs := Function.update l.logs wal (l.logs wal ++ stamp l.clock ops) }

def createWal (wal : ℕ) : Ledger := { l with logs := Function.update l.logs wal [] }

/-- Operations that a replay does not reach are not in any MemTable. -/
def reopen (d : Disk) : Ledger :=
  let kept := { l with logs := fun n => (l.logs n).take (replayedOps ((d.wals.get n).getD [])).length }
  if d.wals.isEmpty then kept.createWal (recoverVersion d).nextFileNumber else kept

def build (path : TablePath) (age : Bytes → ℕ) : Ledger :=
  { l with
    ages := Function.update l.ages path age
    outdated := Function.update l.outdated path fun _ => false }

/-- The newest version of a key in a MemTable is the one that was inserted last. -/
def flush (path : TablePath) (wals : List ℕ) : Ledger :=
  l.build path fun k => (l.times k wals).getLast?.getD 0

/-- The first source that holds the version which the merge kept. -/
def merge (d : Disk) (sources : List TablePath) (newFile : TablePath) (merged : SSTable) : Ledger :=
  l.build newFile fun k =>
    match sources.find? fun path => newest (d.entriesOf path) k = newest merged.entries k with
    | some path => l.ages path k
    | none => 0

def publish (d : Disk) (sources : List TablePath) (newFile : TablePath) : Ledger :=
  { l with outdated := fun path k => l.outdated path k ||
      sources.contains path && (newest (d.entriesOf path) k).isSome && (newest (d.entriesOf newFile) k).isSome &&
        l.ages path k < l.ages newFile k }

/-- What a step of the threads does to the ledger. -/
def step (s : Threads) : ThreadEvent → Ledger
  | .write group =>
    if group.isEmpty then l
    else if (s.db.writeGroup group).shouldFlush then
      (l.append s.db.currentWal group.flatten).createWal s.db.version.nextFileNumber
    else l.append s.db.currentWal group.flatten
  | .flush =>
    match s.flusher with
    | .building entry path => l.flush path entry.wals
    | _ => l
  | .merge _ => l
  | .compact =>
    match s.compactor with
    | .building _ sources newFile merged => l.merge s.db.disk sources newFile merged
    | .listing _ sources newFile merged =>
      if merged.entries.isEmpty then l else l.publish s.db.disk sources newFile
    | _ => l

end Ledger

/-- Where a crash comes: between two steps, after some bytes of a WAL record, or after some of the calls
that make up the next step of a thread. -/
inductive CrashPoint
  | between
  | append (group : WriteGroup) (bytes : ℕ)
  | flush (calls : ℕ)
  | compact (calls : ℕ)

/-- What the crash leaves of the files. -/
def Threads.crash (s : Threads) : CrashPoint → Option Disk
  | .between => some s.db.disk
  | .append group bytes =>
    if group.isEmpty then none
    else some (s.db.disk.apply (.wal (.append s.db.currentWal ((walRecord (encodeGroup group)).take bytes))))
  | .flush calls =>
    if calls<s.flusher.calls.length then some (s.db.disk.exec (s.flusher.calls.take calls)) else none
  | .compact calls =>
    if calls<(s.compactor.calls s.db.version.levels).length then
      some (s.db.disk.exec ((s.compactor.calls s.db.version.levels).take calls))
    else none

/-- A record that is complete when the crash comes will be replayed. -/
def Ledger.crash (l : Ledger) (s : Threads) : CrashPoint → Ledger
  | .append group bytes =>
    if (walRecord (encodeGroup group)).length≤bytes then l.append s.db.currentWal group.flatten else l
  | _ => l

inductive Life
  | down (disk : Disk)
  | up (threads : Threads)

structure Chronicle where
  life : Life
  ledger : Ledger

/-- The database is opened, or a crash cuts that after some calls; a thread makes a step; or the process
crashes. -/
inductive LifeEvent
  | start (options : Options)
  | cutStart (options : Options) (calls : ℕ)
  | work (e : ThreadEvent)
  | crash (point : CrashPoint)

namespace Chronicle

def init : Chronicle := ⟨.down ⟨[],[],⟨none,none,none⟩⟩,.blank⟩

def step (s : Chronicle) : LifeEvent → Option Chronicle
  | .start options =>
    match s.life with
    | .down d => some ⟨.up (Threads.opened options d),s.ledger.reopen d⟩
    | .up _ => none
  | .cutStart options calls =>
    match s.life with
    | .down d =>
      if calls<(recoverOps options d).length then
        some ⟨.down (d.exec ((recoverOps options d).take calls)),s.ledger⟩
      else none
    | .up _ => none
  | .work e =>
    match s.life with
    | .down _ => none
    | .up t => (t.step e).map fun t' => ⟨.up t',s.ledger.step t e⟩
  | .crash point =>
    match s.life with
    | .down _ => none
    | .up t => (t.crash point).map fun d => ⟨.down d,s.ledger.crash t point⟩

def disk (s : Chronicle) : Disk :=
  match s.life with
  | .down d => d
  | .up t => t.db.disk

/-- The live tables: those of the Version, or those the MANIFEST lists while no process runs. -/
def files (s : Chronicle) (level : ℕ) : List TablePath :=
  match s.life with
  | .down d => (filesAt d.listed level).map FileMeta.path
  | .up t => t.db.version.getLevelFiles level

/-- Both tables contain the key only if the newest version in `g` was not written later than the one in `f`. -/
def Newer (s : Chronicle) (k : Bytes) (f g : TablePath) : Prop :=
  (newest (s.disk.entriesOf f) k).isSome = true → (newest (s.disk.entriesOf g) k).isSome = true →
    s.ledger.ages g k ≤ s.ledger.ages f k

/-- The order of the files encodes recency, except for the keys of tables on shallower levels that are
excused. -/
structure InOrder (excused : TablePath → Bytes → Bool) (s : Chronicle) : Prop where
  level : ∀ k i, (s.files i).Pairwise fun g f => s.Newer k f g
  deeper : ∀ k i j, i<j → ∀ f ∈ s.files i, ∀ g ∈ s.files j, s.Newer k f g ∨ excused f k = true

/-- The WAL file that the session appends to. -/
def currentBytes (s : Chronicle) : Bytes :=
  match s.life with
  | .down _ => []
  | .up t => (t.db.disk.wals.get t.db.currentWal).getD []

/-- Groups are below four gigabytes, and a write begins behind complete records only. -/
def AppendsCleanly (s : Chronicle) : LifeEvent → Prop
  | .work (.write group) | .crash (.append group _) =>
    (encodeGroup group).length<2^32 ∧ WholeRecords s.currentBytes
  | _ => True

/-- A merge begins only when no two tables of the level hold versions of one key from different times. -/
def MergesApart (s : Chronicle) : LifeEvent → Prop
  | .work (.merge level) => ∀ k, ∀ f ∈ s.files level, ∀ g ∈ s.files level, s.Newer k f g
  | _ => True

end Chronicle
end TitanKV.Minikv
