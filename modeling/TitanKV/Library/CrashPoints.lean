import Mathlib.Tactic

/-! Procedures that a crash may cut short. A procedure is a list of atomic operations on a
state; what must survive a crash holds before, between and after them. -/
namespace TitanKV.CrashPoints
variable {σ ω : Type*} (apply : σ → ω → σ)

def exec (s : σ) (ops : List ω) : σ := ops.foldl apply s

/-- The property holds at every point where the procedure may be cut. -/
def Along (P : σ → Prop) : σ → List ω → Prop
  | s,[] => P s
  | s,op::ops => P s ∧ Along P (apply s op) ops

variable {apply} {P Q : σ → Prop} {s : σ}

@[simp] theorem exec_nil : exec apply s [] = s := rfl

@[simp] theorem exec_cons (op : ω) (ops : List ω) :
    exec apply s (op::ops) = exec apply (apply s op) ops := rfl

theorem exec_append (ops more : List ω) :
    exec apply s (ops++more) = exec apply (exec apply s ops) more := List.foldl_append

variable {ops : List ω}

theorem Along.now (h : Along apply P s ops) : P s := by
  cases ops with
  | nil => exact h
  | cons op ops => exact h.1

theorem Along.take (h : Along apply P s ops) (n : ℕ) : P (exec apply s (ops.take n)) := by
  induction ops generalizing s n with
  | nil =>
    rw [List.take_nil]
    exact h
  | cons op ops ih =>
    cases n with
    | zero => exact h.1
    | succ n => exact ih h.2 n

theorem Along.append {ops more : List ω} (h : Along apply P s ops)
    (hmore : Along apply P (exec apply s ops) more) : Along apply P s (ops++more) := by
  induction ops generalizing s with
  | nil => exact hmore
  | cons op ops ih => exact ⟨h.1,ih h.2 hmore⟩

/-- A property that every operation keeps holds throughout and at the end. -/
theorem along_of_kept (Q : σ → Prop) (ops : List ω)
    (hkept : ∀ s, ∀ op ∈ ops, Q s → Q (apply s op)) (h : Q s) :
    Along apply Q s ops ∧ Q (exec apply s ops) := by
  induction ops generalizing s with
  | nil => exact ⟨h,h⟩
  | cons op ops ih =>
    obtain ⟨halong,hend⟩ := ih (fun s o ho => hkept s o (by simp [ho])) (hkept s op (by simp) h)
    exact ⟨⟨h,halong⟩,hend⟩

theorem Along.imp (hPQ : ∀ s, P s → Q s) (h : Along apply P s ops) :
    Along apply Q s ops := by
  induction ops generalizing s with
  | nil => exact hPQ s h
  | cons op ops ih => exact ⟨hPQ s h.1,ih h.2⟩

end TitanKV.CrashPoints
