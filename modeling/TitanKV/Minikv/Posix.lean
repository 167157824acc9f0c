import TitanKV.Minikv.Coding

/-! Status values and the outcomes of single system calls. A failing `write` may leave a
prefix of its buffer in the file. -/
namespace TitanKV.Minikv
open List

inductive StatusCode
  | ok
  | notFound
  | corruption
  | notSupported
  | invalidArgument
  | ioError
  deriving DecidableEq, Repr

structure Status where
  code : StatusCode
  msg : String
  deriving DecidableEq, Repr

namespace Status

def Ok : Status := ⟨.ok,""⟩
def NotFound : Status := ⟨.notFound,""⟩
def Corruption (msg : String) : Status := ⟨.corruption,msg⟩
def NotSupported (msg : String) : Status := ⟨.notSupported,msg⟩
def IOError (msg : String) : Status := ⟨.ioError,msg⟩

def ok (s : Status) : Bool := s.code = .ok

@[simp] theorem ok_Ok : Ok.ok = true := rfl
@[simp] theorem ok_NotFound : NotFound.ok = false := rfl
@[simp] theorem ok_IOError (msg : String) : (IOError msg).ok = false := rfl

end Status

/-- What one `write` call does: everything, only the first `n` bytes, or return `-1`. -/
inductive WriteOutcome
  | full
  | short (n : ℕ)
  | error
  deriving DecidableEq, Repr

namespace WriteOutcome

def written : WriteOutcome → Bytes → Bytes
  | full,buf => buf
  | short n,buf => buf.take n
  | error,_ => []

def ret : WriteOutcome → Bytes → ℤ
  | full,buf => buf.length
  | short n,buf => (buf.take n).length
  | error,_ => -1

@[simp] theorem written_full (buf : Bytes) : full.written buf = buf := rfl
@[simp] theorem ret_full (buf : Bytes) : full.ret buf = buf.length := rfl

theorem written_of_ret {o : WriteOutcome} {buf : Bytes} (h : o.ret buf = buf.length) :
    o.written buf = buf := by
  cases o with
  | full => rfl
  | short n =>
    simp only [ret,length_take,Nat.cast_inj] at h
    exact take_of_length_le (by omega)
  | error => simp only [ret] at h; omega

lemma written_eq_take (o : WriteOutcome) (buf : Bytes) :
    ∃ n, o.written buf = buf.take n := by
  cases o with
  | full => exact ⟨buf.length,by simp⟩
  | short n => exact ⟨n,rfl⟩
  | error => exact ⟨0,by simp [written]⟩

end WriteOutcome

/-- A file that is being written. `outcomes` are those of the `write` calls to come; where
none is left a call succeeds. A file that could not be opened takes no bytes. -/
structure OutFile where
  opened : Bool
  content : Bytes
  outcomes : List WriteOutcome
  deriving DecidableEq, Repr

namespace OutFile

def write (f : OutFile) (buf : Bytes) : ℤ × OutFile :=
  if f.opened then
    let o := f.outcomes.headD .full
    (o.ret buf,{ f with content := f.content ++ o.written buf, outcomes := f.outcomes.tail })
  else (-1,f)

lemma content_write (f : OutFile) (buf : Bytes) :
    ∃ n, (f.write buf).2.content = f.content ++ buf.take n := by
  rw [write]
  split
  · obtain ⟨n,hn⟩ := (f.outcomes.headD .full).written_eq_take buf
    exact ⟨n,congrArg (f.content ++ ·) hn⟩
  · exact ⟨0,by simp⟩

lemma content_of_ret {f : OutFile} {buf : Bytes} (h : (f.write buf).1 = buf.length) :
    (f.write buf).2.content = f.content++buf := by
  rw [write] at h ⊢
  split at h
  · rename_i hopen
    rw [if_pos hopen]
    exact congrArg (f.content ++ ·) (WriteOutcome.written_of_ret h)
  · omega

/-- The file is open and every call to come writes its whole buffer. -/
structure Healthy (f : OutFile) : Prop where
  opened : f.opened = true
  outcomes : ∀ o ∈ f.outcomes, o = .full

variable {f : OutFile}

lemma Healthy.write (h : f.Healthy) (buf : Bytes) : (f.write buf).1 = buf.length ∧
    (f.write buf).2.content = f.content++buf ∧ (f.write buf).2.Healthy := by
  have hhead : f.outcomes.headD .full = .full := by
    cases ho : f.outcomes with
    | nil => rfl
    | cons o os => exact h.outcomes o (by simp [ho])
  rw [OutFile.write,if_pos h.opened]
  rw [hhead]
  exact ⟨rfl,rfl,h.opened,fun o ho => h.outcomes o (mem_of_mem_tail ho)⟩

end OutFile

/-- What one `read` call does: as much as there is, at most `n` bytes, or return `-1`. -/
inductive ReadOutcome
  | full
  | short (n : ℕ)
  | error
  deriving DecidableEq, Repr

/-- An open file that is being read. `outcomes` are those of the `read` calls to come; where
none is left a call succeeds. -/
structure InFile where
  content : Bytes
  pos : ℕ
  outcomes : List ReadOutcome
  deriving DecidableEq, Repr

namespace InFile

/-- `lseek` with `SEEK_SET`. An offset that is negative as an `off_t` is refused. -/
def lseek (f : InFile) (offset : ℕ) : InFile := if offset<2^63 then { f with pos := offset } else f

/-- The bytes that one `read` call of up to `len` bytes returns, none for `-1`. -/
def read (f : InFile) (len : ℕ) : Option Bytes × InFile :=
  let available := (f.content.drop f.pos).take len
  match f.outcomes.headD .full with
  | .full => (some available,{ f with pos := f.pos+available.length, outcomes := f.outcomes.tail })
  | .short n => (some (available.take n),
      { f with pos := f.pos+(available.take n).length, outcomes := f.outcomes.tail })
  | .error => (none,{ f with outcomes := f.outcomes.tail })

/-- A `read` whose caller goes on only if the buffer was filled. -/
def readFull (f : InFile) (len : ℕ) : Option Bytes × InFile :=
  ((f.read len).1.filter fun data => data.length = len,(f.read len).2)

variable {f : InFile}

@[simp] theorem content_readFull (f : InFile) (len : ℕ) : (f.readFull len).2.content = f.content := by
  simp only [readFull,read]
  split <;> rfl

/-- A failing call returns too little; what fills the buffer is what the file holds. -/
theorem eq_of_readFull {len : ℕ} {data : Bytes} (h : (f.readFull len).1 = some data) :
    data = (f.content.drop f.pos).take len ∧ data.length = len ∧ (f.readFull len).2.pos = f.pos+len := by
  obtain ⟨hread,hlen⟩ := Option.filter_eq_some_iff.mp h
  rw [decide_eq_true_eq] at hlen
  simp only [readFull,read] at hread ⊢
  split at hread
  · cases hread
    exact ⟨rfl,hlen,by rw [hlen]⟩
  · rename_i n _
    cases hread
    have hall : ((f.content.drop f.pos).take len).take n = (f.content.drop f.pos).take len := by
      apply take_of_length_le
      simp only [length_take] at hlen ⊢
      omega
    exact ⟨hall,hlen,by rw [hlen]⟩
  · cases hread

lemma readFull_eq {content front data rest : Bytes} {pos len : ℕ} (hc : content = front++(data++rest))
    (hpos : pos = front.length) (hlen : data.length = len) :
    (⟨content,pos,[]⟩ : InFile).readFull len = (some data,⟨content,pos+len,[]⟩) := by
  have havailable : (content.drop pos).take len = data := by
    rw [hc,hpos,drop_left,← hlen,take_left]
  simp [InFile.readFull,read,havailable,hlen,Option.filter]

lemma lseek_eq {content : Bytes} {offset : ℕ} (pos : ℕ) (outcomes : List ReadOutcome) (h : offset<2^63) :
    (⟨content,pos,outcomes⟩ : InFile).lseek offset = ⟨content,offset,outcomes⟩ := by
  rw [lseek,if_pos h]

end InFile
end TitanKV.Minikv
