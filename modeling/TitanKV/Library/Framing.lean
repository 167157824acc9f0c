import TitanKV.Library.Parsing

/-! Streams of self-describing frames. A frame is a header of fixed width followed by
its body; the header alone determines how long the body is and which bodies it accepts.
The reader stops at the first header or body that is cut short or refused. -/
namespace TitanKV
open Parsing List

structure Framing (β : Type*) where
  width : ℕ
  width_pos : 0<width
  header : List β → List β
  header_length : ∀ body, (header body).length=width
  bodyLength : List β → ℕ
  accepts : List β → List β → Bool

namespace Framing
variable {β : Type*} (F : Framing β)

def frame (body : List β) : List β := F.header body ++ body

/-- The header written for this body leads the reader back to it. -/
def Fits (body : List β) : Prop :=
  F.bodyLength (F.header body)=body.length ∧ F.accepts (F.header body) body=true

def readFrame (s : List β) : Option (List β × List β) :=
  if s.length<F.width then none
  else if (s.drop F.width).length < F.bodyLength (s.take F.width) then none
  else if F.accepts (s.take F.width) ((s.drop F.width).take (F.bodyLength (s.take F.width))) then
    some ((s.drop F.width).splitAt (F.bodyLength (s.take F.width)))
  else none

def read (s : List β) : List (List β) := many F.readFrame s

/-- The bodies, in order, whose frames end within the first `n` symbols. -/
def within : ℕ → List (List β) → List (List β)
  | _,[] => []
  | n,body::bodies =>
    if (F.frame body).length≤n then body::within (n-(F.frame body).length) bodies else []

theorem within_eq_take (n : ℕ) (bodies : List (List β)) :
    F.within n bodies=bodies.take (F.within n bodies).length := by
  induction bodies generalizing n with
  | nil => rfl
  | cons body bodies ih =>
    rw [within]
    split
    · rw [length_cons,take_succ_cons,← ih]
    · rfl

@[simp] theorem length_frame (body : List β) : (F.frame body).length=F.width+body.length := by
  simp [frame,F.header_length]

lemma readFrame_consumes : Consumes F.readFrame := by
  intro s body rest h
  have hw := F.width_pos
  unfold readFrame at h
  split at h
  · contradiction
  · split at h
    · contradiction
    · split at h
      · simp only [splitAt_eq,Option.some.injEq,Prod.mk.injEq] at h
        obtain ⟨-,rfl⟩ := h
        simp only [length_drop]
        omega
      · contradiction

theorem readFrame_frame {body : List β} (h : F.Fits body) (rest : List β) :
    F.readFrame (F.frame body ++ rest)=some (body,rest) := by
  obtain ⟨hl,ha⟩ := h
  have hw := F.header_length body
  have ht : (F.frame body ++ rest).take F.width=F.header body := by
    rw [frame,append_assoc,← hw,take_left]
  have hd : (F.frame body ++ rest).drop F.width=body++rest := by
    rw [frame,append_assoc,← hw,drop_left]
  have hlen : ¬ (F.frame body ++ rest).length<F.width := by simp; omega
  unfold readFrame
  rw [ht,hd,hl,if_neg hlen]
  simp [ha]

theorem readFrame_cut {body : List β} (h : F.Fits body) {n : ℕ} (hn : n<(F.frame body).length) :
    F.readFrame ((F.frame body).take n)=none := by
  obtain ⟨hl,-⟩ := h
  rw [length_frame] at hn
  have hw := F.header_length body
  unfold readFrame
  split
  · rfl
  · rename_i hlen
    have hwn : F.width≤n := by simp at hlen; omega
    have ht : ((F.frame body).take n).take F.width=F.header body := by
      rw [take_take,min_eq_left hwn,frame,← hw,take_left]
    rw [if_pos]
    rw [ht,hl]
    simp only [length_drop,length_take,length_frame]
    omega

lemma accepts_of_mem_read {body s : List β} (h : body ∈ F.read s) :
    ∃ header, body.length=F.bodyLength header ∧ F.accepts header body=true := by
  obtain ⟨s',rest,hs⟩ := exists_of_mem_many h
  unfold readFrame at hs
  split at hs
  · contradiction
  · split at hs
    · contradiction
    · split at hs
      · rename_i haccepts
        simp only [splitAt_eq,Option.some.injEq,Prod.mk.injEq] at hs
        obtain ⟨rfl,-⟩ := hs
        exact ⟨s'.take F.width,by rw [length_take]; omega,haccepts⟩
      · contradiction

theorem read_nil : F.read []=[] :=
  many_of_none (by simp [readFrame,F.width_pos])

variable (bodies : List (List β))

/-- Complete frames are read back in order, and the reader then continues with the tail. -/
theorem read_append (s : List β) (h : ∀ body ∈ bodies, F.Fits body) :
    F.read (bodies.flatMap F.frame ++ s)=bodies ++ F.read s :=
  many_flatMap F.readFrame_consumes F.frame bodies s
    (fun body hb rest => F.readFrame_frame (h body hb) rest)

/-- Cutting a stream of frames at any point keeps exactly the frames that end before it. -/
theorem read_take (h : ∀ body ∈ bodies, F.Fits body) (n : ℕ) :
    F.read ((bodies.flatMap F.frame).take n)=F.within n bodies := by
  induction bodies generalizing n with
  | nil => simpa [within] using F.read_nil
  | cons body bodies ih =>
    have hb := h body (by simp)
    rw [flatMap_cons,within]
    split
    · rename_i hn
      rw [take_append,take_of_length_le hn]
      rw [read,many_of_some F.readFrame_consumes (F.readFrame_frame hb _)]
      congr 1
      exact ih (fun b hm => h b (by simp [hm])) _
    · rw [take_append_of_le_length (by omega)]
      exact many_of_none (F.readFrame_cut hb (by omega))

end Framing
end TitanKV
