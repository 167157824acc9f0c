import TitanKV.Minikv.Durability

/-! The invariant of a running session. The WAL files fall into generations: the one being
flushed, the queued ones and the active one. Each MemTable holds the operations of the files
of its generation, and the SSTables reach at most to the end of the oldest generation. -/
namespace TitanKV.Minikv
open Layers CrashPoints

abbrev Generation := Directory ℕ Bytes

/-- Operations that are in the WAL but not in the MemTable yet. -/
def Writer.pending : Writer → List BatchOp
  | writing group [] => group.flatten
  | _ => []

@[simp] theorem Writer.pending_idle : Writer.idle.pending = [] := rfl
@[simp] theorem Writer.pending_applied (group : WriteGroup) : (Writer.applied group).pending = [] := rfl

/-- What the writer has done to the current WAL file. -/
def WriteState (wal : ℕ) (bytes : Bytes) : Writer → Prop
  | .idle => True
  | .applied _ => True
  | .writing group rest =>
    rest = appendOps wal group ∧ (encodeGroup group).length<2^32 ∧ WholeRecords bytes ∨
    (∃ base, rest = [.wal (.append wal (walPayload (encodeGroup group)))] ∧
      (encodeGroup group).length<2^32 ∧ WholeRecords base ∧ encodeGroup group ≠ [] ∧
      bytes = base ++ walHeader (encodeGroup group)) ∨
    rest = []

/-- A table that is being built from a generation and is not listed yet. -/
structure Building (next : ℕ) (files : List SSTableMeta) (front : Generation) (entry : FlushEntry)
    (path : TablePath) : Prop where
  wals : entry.wals = front.names
  holds : Holds entry.memtable.table.chain (walOps front)
  level : path.level = 0
  taken : path.number<next
  unlisted : ∀ m ∈ files, m.path ≠ path

def addRecord (path : TablePath) : ManifestRecord := .add path.level path path.number

/-- How far the flush thread has come. `twice` are the operations that SSTables and WAL files
both hold, and `tail` is what the MANIFEST holds of an unfinished record. -/
def FlushState (next : ℕ) (files : List SSTableMeta) (entries : TablePath → List Entry)
    (front : Generation) (twice : List BatchOp) (tail : List Chunk) : Flusher → Prop
  | .idle => front = [] ∧ tail = []
  | .flushing entry path rest =>
    rest = unlinkOps front.names ∧ twice = walOps front ∧ tail = [] ∨
    ∃ p, path = some p ∧ Building next files front entry p ∧
      (rest = flushOps p entry.sstable entry.wals ∧ tail = [] ∨
      rest = .table (.complete p entry.sstable)::(recordOps (addRecord p) ++ unlinkOps entry.wals) ∧
        tail = [] ∨
      entries p = entry.memtable.table.chain ∧
        (rest = recordOps (addRecord p) ++ unlinkOps entry.wals ∧ tail = [] ∨
        rest = .manifest (.write (.payload (addRecord p)))::unlinkOps entry.wals ∧
          tail = [.header (addRecord p)]))

/-- How the files divide: the generation being flushed, the queued ones, the retired and the
current file of the active one, the operations that only SSTables, both or only WAL files
hold, and the log. -/
structure Division where
  front : Generation
  queued : List Generation
  retired : Generation
  bytes : Bytes
  tabled : List BatchOp
  twice : List BatchOp
  logged : List BatchOp
  records : List ManifestRecord
  tail : List Chunk

def Division.active (g : Division) (wal : ℕ) : Generation := g.retired++[(wal,g.bytes)]

def Division.oldest (g : Division) (wal : ℕ) : Flusher → Generation
  | .idle => (g.queued++[g.active wal]).headD []
  | .flushing _ _ _ => g.front

structure Live (ops : List BatchOp) (db : DBImpl) (w : Writer) (f : Flusher) (g : Division) : Prop where
  wals : db.disk.wals = g.front++(g.queued.flatten ++ g.active db.currentWal)
  ascending : db.disk.wals.names.Pairwise (· < ·)
  below : ∀ n ∈ db.disk.wals.names, n<db.version.nextFileNumber
  queue : List.Forall₂ (fun entry gen => entry.wals = gen.names ∧
    Holds entry.memtable.table.chain (walOps gen)) db.flushQueue g.queued
  retired : g.retired.names = db.obsoleteWals
  active : ∃ applied, walOps (g.active db.currentWal) = applied++w.pending ∧
    Holds db.memtable.table.chain applied
  seqs : ∀ e ∈ db.memtable.table.chain, e.key.seq≤db.seq
  writer : WriteState db.currentWal g.bytes w
  manifest : db.disk.manifest.active = some (recordChunks g.records ++ g.tail)
  flat : ∀ i, 0 < i → filesAt db.disk.listed i = []
  named : ∀ m ∈ filesAt db.disk.listed 0,
    m.path = ⟨0,m.fileNumber⟩ ∧ m.fileNumber<db.version.nextFileNumber
  history : ops = g.tabled++g.twice++g.logged
  logs : walOps db.disk.wals = g.twice++g.logged
  view : ∀ k, tableView db.disk (filesAt db.disk.listed 0) k = lastOp (g.tabled++g.twice) k
  oldest : g.twice <+: walOps (g.oldest db.currentWal f)
  flusher : FlushState db.version.nextFileNumber (filesAt db.disk.listed 0) db.disk.entriesOf
    g.front g.twice g.tail f

@[simp] theorem walOps_append (a b : Directory ℕ Bytes) : walOps (a++b) = walOps a ++ walOps b :=
  List.flatMap_append

variable {entries : TablePath → List Entry} {files : List SSTableMeta} {twice : List BatchOp}

lemma FlushState.mono {next next' : ℕ} (h : next≤next') {front : Generation}
    {tail : List Chunk} {f : Flusher} (hf : FlushState next files entries front twice tail f) :
    FlushState next' files entries front twice tail f := by
  cases f with
  | idle => exact hf
  | flushing entry path rest =>
    rcases hf with hf | ⟨p,hp,hb,hf⟩
    · exact .inl hf
    · exact .inr ⟨p,hp,{ hb with taken := hb.taken.trans_le h },hf⟩

lemma FlushState.replayLog_tail {next : ℕ} {front : Generation}
    {tail : List Chunk} {f : Flusher} (hf : FlushState next files entries front twice tail f) :
    replayLog tail = [] := by
  cases f with
  | idle =>
    rw [hf.2]
    rfl
  | flushing entry path rest =>
    rcases hf with ⟨-,-,rfl⟩ | ⟨p,-,-,⟨-,rfl⟩ | ⟨-,rfl⟩ | ⟨-,⟨-,rfl⟩ | ⟨-,rfl⟩⟩⟩ <;> rfl

namespace Live
variable {ops : List BatchOp} {db : DBImpl} {w : Writer} {f : Flusher} {g : Division}

/-- A crash leaves files that hold the operations. -/
theorem durable (h : Live ops db w f g) : Durable ops db.disk :=
  ⟨h.ascending,h.flat,fun m hm => (h.named m hm).1,_,_,_,h.history,h.logs,h.view⟩

lemma listed_eq (h : Live ops db w f g) : db.disk.listed = replayRecords g.records :=
  Disk.listed_of_active h.manifest h.flusher.replayLog_tail

lemma wals_split (h : Live ops db w f g) :
    db.disk.wals = (g.front++(g.queued.flatten++g.retired))++[(db.currentWal,g.bytes)] := by
  rw [h.wals,Division.active]
  simp only [List.append_assoc]

lemma current_not_mem (h : Live ops db w f g) :
    db.currentWal ∉ Directory.names (g.front++(g.queued.flatten++g.retired)) := by
  have hasc := h.ascending
  rw [h.wals_split,Directory.names,List.map_append] at hasc
  intro hmem
  exact lt_irrefl _ ((List.pairwise_append.mp hasc).2.2 _ hmem _ (by simp))

end Live
end TitanKV.Minikv
