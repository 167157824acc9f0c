import TitanKV.Minikv.Wal
import TitanKV.Minikv.WriteBatch
import TitanKV.Minikv.MemTable

/-! Replaying a WAL file into a MemTable, and what a replay recovers of a file that was
cut short: the write groups whose records are complete, each as a whole. -/
namespace TitanKV.Minikv
open List

/-- The body of the replay loop. Replayed operations are numbered from `seq_` on. -/
def applyOp (s : MemTable × ℕ) (op : BatchOp) : MemTable × ℕ :=
  (s.1.put op.key op.value s.2 (op.type = .delete),s.2+1)

def replayWalFile (s : MemTable × ℕ) (file : Bytes) : MemTable × ℕ :=
  (walReplay file).foldl (fun s record => (decodeOps record).foldl applyOp s) s

def walOfGroups (groups : List WriteGroup) : Bytes :=
  groups.foldl (fun file group => (walAppend file (encodeGroup group) .full .full).2) []

def recordEnd (groups : List WriteGroup) (i : ℕ) : ℕ :=
  ((groups.take (i+1)).map fun group => (walRecord (encodeGroup group)).length).sum

/-- The groups whose records lie entirely within the first `n` bytes, in order. -/
def wholeGroups (groups : List WriteGroup) (n : ℕ) : List WriteGroup :=
  (groups.zipIdx.filter fun p => recordEnd groups p.2 ≤ n).map Prod.fst

lemma walAppend_full (file data : Bytes) :
    (walAppend file data .full .full).2 = file ++ walRecord data := by
  simp [walAppend,walRecord]

variable (groups : List WriteGroup)

lemma walOfGroups_eq :
    walOfGroups groups = (groups.map encodeGroup).flatMap walRecord := by
  have h : ∀ file, groups.foldl (fun file group =>
      (walAppend file (encodeGroup group) .full .full).2) file =
      file ++ (groups.map encodeGroup).flatMap walRecord := by
    induction groups with
    | nil => simp
    | cons group groups ih =>
      intro file
      rw [foldl_cons,ih,walAppend_full]
      simp
  exact (h []).trans (nil_append _)

variable (group : WriteGroup)

lemma recordEnd_succ (groups : List WriteGroup) (i : ℕ) :
    recordEnd (group::groups) (i+1) =
      (walRecord (encodeGroup group)).length + recordEnd groups i := by
  simp [recordEnd]

lemma recordEnd_zero (groups : List WriteGroup) :
    recordEnd (group::groups) 0 = (walRecord (encodeGroup group)).length := by
  simp [recordEnd]

/-- The first group decides by its own size; the others are cut at what it leaves. -/
lemma wholeGroups_cons (groups : List WriteGroup) (n : ℕ) :
    wholeGroups (group::groups) n =
      if (walRecord (encodeGroup group)).length≤n then
        group::wholeGroups groups (n-(walRecord (encodeGroup group)).length) else [] := by
  have hidx : (group::groups).zipIdx = (group,0)::groups.zipIdx.map fun p => (p.1,p.2+1) := by
    rw [zipIdx_cons,zipIdx_succ]
  unfold wholeGroups
  rw [hidx,filter_cons,recordEnd_zero,filter_map]
  split
  · rename_i hn
    have hn' : (walRecord (encodeGroup group)).length≤n := by simpa using hn
    have hcut : groups.zipIdx.filter ((fun p => decide (recordEnd (group::groups) p.2 ≤ n)) ∘
        fun p => (p.1,p.2+1)) = groups.zipIdx.filter fun p =>
          decide (recordEnd groups p.2 ≤ n-(walRecord (encodeGroup group)).length) := by
      apply filter_congr
      intro p _
      simp only [Function.comp_apply,recordEnd_succ,decide_eq_decide]
      omega
    rw [if_pos hn',hcut]
    simp
  · rename_i hn
    have hn' : ¬ (walRecord (encodeGroup group)).length≤n := by simpa using hn
    rw [if_neg hn']
    simp only [map_eq_nil_iff,filter_eq_nil_iff,Function.comp_apply,recordEnd_succ,
      decide_eq_true_eq]
    intro p _
    omega

lemma walReplay_take (n : ℕ)
    (h : ∀ group ∈ groups, (encodeGroup group).length<2^32) :
    walReplay ((walOfGroups groups).take n) = (wholeGroups groups n).map encodeGroup := by
  rw [walOfGroups_eq]
  induction groups generalizing n with
  | nil => simp [wholeGroups]
  | cons group groups ih =>
    have hg := h group (by simp)
    have htail := ih (n-(walRecord (encodeGroup group)).length) (fun x hx => h x (by simp [hx]))
    rw [map_cons,flatMap_cons,wholeGroups_cons]
    split
    · rename_i hn
      have hr := walReplay_append [encodeGroup group]
        (((groups.map encodeGroup).flatMap walRecord).take (n-(walRecord (encodeGroup group)).length))
        (by simpa using hg)
      rw [take_append,take_of_length_le hn,map_cons,← htail]
      simpa using hr
    · rw [take_append_of_le_length (by omega),map_nil]
      exact walReplay_cut (by omega)

end TitanKV.Minikv
