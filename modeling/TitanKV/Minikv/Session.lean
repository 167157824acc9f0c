import TitanKV.Minikv.Compaction
import TitanKV.Minikv.Effect

/-! Runs of a database: write groups, MemTables frozen at any point, rounds of the flush
thread, compactions of a level, and clean closes followed by a reopen. -/
namespace TitanKV.Minikv

inductive Event
  | write (group : WriteGroup)
  | freeze
  | flush
  | compact (level : ℕ)
  | reopen
  deriving DecidableEq, Repr

namespace Event

def plain : Event → Bool
  | write _ | freeze | flush => true
  | compact _ | reopen => false

def inSession : Event → Bool
  | reopen => false
  | _ => true

def ops : Event → List BatchOp
  | write group => group.flatten
  | _ => []

end Event

def history (events : List Event) : List BatchOp := events.flatMap Event.ops

namespace DBImpl

/-- The destructor lets the flush thread drain its queue before it joins it. -/
def close (db : DBImpl) : DBImpl := flushNext^[db.flushQueue.length] db

def step (db : DBImpl) : Event → DBImpl
  | .write group => db.writeGroup group
  | .freeze => db.freeze
  | .flush => db.flushNext
  | .compact level => (db.mergeLevel level).2
  | .reopen => recover db.options db.close.disk

def run (db : DBImpl) (events : List Event) : DBImpl := events.foldl step db

lemma run_append (db : DBImpl) (events more : List Event) :
    db.run (events++more) = (db.run events).run more := List.foldl_append

theorem run_of_session {P : DBImpl → Prop} (hwrite : ∀ db group, P db → P (db.writeGroup group))
    (hfreeze : ∀ db, P db → P db.freeze) (hflush : ∀ db, P db → P db.flushNext)
    (hcompact : ∀ db level, P db → P (db.mergeLevel level).2) {db : DBImpl} (h : P db) {events : List Event}
    (hsession : ∀ e ∈ events, e.inSession = true) : P (db.run events) := by
  induction events generalizing db with
  | nil => exact h
  | cons e es ih =>
    refine ih ?_ (fun x hx => hsession x (by simp [hx]))
    have he := hsession e (by simp)
    cases e with
    | write group => exact hwrite db group h
    | freeze => exact hfreeze db h
    | flush => exact hflush db h
    | compact level => exact hcompact db level h
    | reopen => cases he

/-- `doWriteGroup` is a write, followed by a freeze when the MemTable is full. -/
theorem doWriteGroup_eq (db : DBImpl) (group : WriteGroup) :
    ∃ events, (events = [.write group] ∨ events = [.write group,.freeze]) ∧
      db.doWriteGroup group = db.run events := by
  by_cases hg : group.isEmpty = true
  · refine ⟨[.write group],.inl rfl,?_⟩
    simp [doWriteGroup,run,step,writeGroup,hg]
  · rw [doWriteGroup,if_neg hg,maybeFlush]
    split
    · exact ⟨[.write group,.freeze],.inr rfl,rfl⟩
    · exact ⟨[.write group],.inl rfl,rfl⟩

end DBImpl

/-- The status and value of `get` for what its search found. -/
def answer : Option Bytes → Except Status Bytes
  | some v => .ok v
  | none => .error .NotFound

/-- What a reader should be told after these operations. -/
def expected (ops : List BatchOp) (k : Bytes) : Except Status Bytes := answer (lastOp ops k).join

lemma answer_injective : Function.Injective answer := by
  rintro (_|v) (_|w) h
  · rfl
  · cases h
  · cases h
  · exact congrArg some (Except.ok.inj h)

end TitanKV.Minikv
