import TitanKV.Minikv.Chronicle
import TitanKV.Minikv.CrashSteps

/-! The WAL files of the chronicle: what a replay finds in them is what the ledger says, in the order in
which it was written. -/
namespace TitanKV.Minikv
open List Function Stamped

section Stamps
variable {clock : ℕ} {ops : List BatchOp}

@[simp] lemma stamp_nil : stamp clock [] = [] := rfl

lemma stamp_cons (op : BatchOp) : stamp clock (op::ops) = ⟨op,clock⟩::stamp (clock+1) ops := by
  rfl

lemma map_op_stamp : (stamp clock ops).map op = ops := by
  induction ops generalizing clock with
  | nil => rfl
  | cons op ops ih => rw [stamp_cons,map_cons,ih]

lemma time_mem_stamp {s : Stamped} (h : s ∈ stamp clock ops) : clock ≤ s.time ∧ s.time<clock+ops.length := by
  induction ops generalizing clock with
  | nil => cases h
  | cons op ops ih =>
    rw [length_cons]
    rcases mem_cons.mp h with rfl | h
    · exact ⟨le_rfl,by dsimp only; omega⟩
    · have hlt := ih h
      omega

lemma pairwise_stamp : ((stamp clock ops).map time).Pairwise (· < ·) := by
  induction ops generalizing clock with
  | nil => exact Pairwise.nil
  | cons op ops ih =>
    refine pairwise_cons.mpr ⟨?_,ih⟩
    intro t ht
    obtain ⟨s,hs,rfl⟩ := mem_map.mp ht
    exact Nat.lt_of_succ_le (time_mem_stamp hs).1

end Stamps

namespace Ledger
variable (l : Ledger) (k : Bytes)

def ops (wals : List ℕ) : List BatchOp := (wals.flatMap l.logs).map op

lemma times_append (a b : List ℕ) : l.times k (a++b) = l.times k a ++ l.times k b := by
  rw [times,flatMap_append,filter_append,map_append]
  rfl

lemma flatten_times (gens : List (List ℕ)) : (gens.map (l.times k)).flatten = l.times k gens.flatten := by
  induction gens with
  | nil => rfl
  | cons gen gens ih => rw [map_cons,flatten_cons,flatten_cons,times_append,ih]

lemma times_sublist (wals : List ℕ) : (l.times k wals).Sublist ((wals.flatMap l.logs).map time) :=
  filter_sublist.map _

variable {l k}

variable {wals : List ℕ}

lemma isSome_newest_iff {es : List Entry} (h : Holds es (l.ops wals)) :
    (newest es k).isSome = true ↔ l.times k wals ≠ [] := by
  have hlast : (newest es k).isSome = true ↔ lastOp (l.ops wals) k ≠ none := by
    rw [← h k]
    cases newest es k <;> simp
  rw [hlast,ne_eq,ne_eq,not_iff_not,lastOp_eq_none_iff,times,map_eq_nil_iff,filter_eq_nil_iff,ops]
  constructor
  · intro hops s hs
    simpa using hops s.op (mem_map_of_mem hs)
  · intro hs op hop
    obtain ⟨s,hmem,rfl⟩ := mem_map.mp hop
    simpa using hs s hmem

lemma flatMap_update {n : ℕ} (hn : n ∉ wals) (logs : ℕ → List Stamped) (log : List Stamped) :
    wals.flatMap (Function.update logs n log) = wals.flatMap logs := by
  apply flatMap_congr
  intro m hm
  have hne : m ≠ n := fun heq => hn (heq ▸ hm)
  rw [update_of_ne hne]

lemma times_congr {l' : Ledger} (h : wals.flatMap l'.logs = wals.flatMap l.logs) :
    l'.times k wals = l.times k wals := by
  rw [times,times,h]

lemma flatMap_logs_append {wal : ℕ} (hwal : wal ∉ wals) (new : List BatchOp) :
    (wals++[wal]).flatMap (l.append wal new).logs = (wals++[wal]).flatMap l.logs ++ stamp l.clock new := by
  have hlast : (l.append wal new).logs wal = l.logs wal ++ stamp l.clock new := update_self _ _ _
  rw [flatMap_append,flatMap_append,flatMap_singleton,flatMap_singleton,hlast,← append_assoc]
  exact congrArg (· ++ l.logs wal ++ stamp l.clock new) (flatMap_update hwal l.logs _)

lemma append_nil (wal : ℕ) : l.append wal [] = l := by
  rw [append,stamp_nil,List.append_nil,update_eq_self]
  rfl

end Ledger

/-- The WAL files on disk are those of the generations, and a replay of each finds the operations that
the ledger has for it. -/
structure Logs (l : Ledger) (d : Disk) (gens : List (List ℕ)) : Prop where
  names : d.wals.names = gens.flatten
  ascending : d.wals.names.Pairwise (· < ·)
  replayed : ∀ w ∈ d.wals, replayedOps w.2 = (l.logs w.1).map op
  times : ((gens.flatten.flatMap l.logs).map time).Pairwise (· < ·)
  clock : ∀ s ∈ gens.flatten.flatMap l.logs, s.time<l.clock

namespace Logs
variable {l : Ledger} {d d' : Disk} {gens : List (List ℕ)}

section
variable (h : Logs l d gens)
include h

lemma congr (hwals : d'.wals = d.wals) : Logs l d' gens :=
  ⟨by rw [hwals]; exact h.names,by rw [hwals]; exact h.ascending,by rw [hwals]; exact h.replayed,h.times,h.clock⟩

lemma regroup {gens' : List (List ℕ)} (hflat : gens'.flatten = gens.flatten) : Logs l d gens' :=
  ⟨by rw [hflat]; exact h.names,h.ascending,h.replayed,by rw [hflat]; exact h.times,by rw [hflat]; exact h.clock⟩

lemma ledger_congr {l' : Ledger} (hlogs : ∀ n ∈ gens.flatten, l'.logs n = l.logs n)
    (hclock : l'.clock = l.clock) : Logs l' d gens := by
  have hflat : gens.flatten.flatMap l'.logs = gens.flatten.flatMap l.logs := flatMap_congr hlogs
  refine ⟨h.names,h.ascending,?_,by rw [hflat]; exact h.times,by rw [hflat,hclock]; exact h.clock⟩
  intro w hw
  rw [hlogs w.1 (by rw [← h.names]; exact mem_map_of_mem hw)]
  exact h.replayed w hw

lemma walOps_eq : walOps d.wals = l.ops gens.flatten := by
  rw [← h.names,walOps,Ledger.ops,Directory.names,flatMap_map,map_flatMap]
  exact flatMap_congr h.replayed

lemma pairwise_times (k : Bytes) : (gens.map (l.times k)).flatten.Pairwise (· < ·) := by
  rw [Ledger.flatten_times]
  exact h.times.sublist (l.times_sublist k _)

lemma lt_clock {k : Bytes} {wals : List ℕ} (hwals : wals ∈ gens) {u : ℕ}
    (hu : u ∈ l.times k wals) : u<l.clock := by
  obtain ⟨s,hs,rfl⟩ := mem_map.mp ((l.times_sublist k wals).subset hu)
  refine h.clock s ?_
  obtain ⟨n,hn,hs⟩ := mem_flatMap.mp hs
  exact mem_flatMap.mpr ⟨n,mem_flatten.mpr ⟨wals,hwals,hn⟩,hs⟩

/-- Bytes are appended to the newest file, with the operations they complete. -/
theorem append {wal : ℕ} {wals : List ℕ} (hlast : gens.flatten = wals++[wal]) {data : Bytes} {new : List BatchOp}
    (hnew : ∀ bytes, (wal,bytes) ∈ d.wals → replayedOps (bytes++data) = replayedOps bytes ++ new) :
    Logs (l.append wal new) (d.apply (.wal (.append wal data))) gens := by
  have hnames : (d.apply (.wal (.append wal data))).wals.names = d.wals.names :=
    Directory.names_update d.wals wal (· ++ data)
  have hwal : wal ∉ wals := by
    have hasc := h.ascending
    rw [h.names,hlast] at hasc
    exact fun hmem => lt_irrefl _ ((pairwise_append.mp hasc).2.2 wal hmem wal (by simp))
  have hflat := Ledger.flatMap_logs_append (l := l) hwal new
  refine ⟨hnames.trans h.names,hnames ▸ h.ascending,?_,?_,?_⟩
  · intro w hw
    obtain ⟨f,hf,rfl⟩ := mem_map.mp hw
    split
    · rename_i heq
      change replayedOps (f.2++data) = (Function.update l.logs wal _ wal).map op
      rw [update_self,map_append,map_op_stamp,hnew f.2 (heq ▸ hf),h.replayed f hf,heq]
    · rename_i hne
      change replayedOps f.2 = (Function.update l.logs wal _ f.1).map op
      rw [update_of_ne hne]
      exact h.replayed f hf
  · rw [hlast,hflat,map_append]
    refine pairwise_append.mpr ⟨hlast ▸ h.times,pairwise_stamp,?_⟩
    intro t ht u hu
    obtain ⟨s,hs,rfl⟩ := mem_map.mp ht
    obtain ⟨s',hs',rfl⟩ := mem_map.mp hu
    exact (h.clock s (hlast ▸ hs)).trans_le (time_mem_stamp hs').1
  · intro s hs
    rw [hlast,hflat] at hs
    rcases mem_append.mp hs with hs | hs
    · exact (h.clock s (hlast ▸ hs)).trans_le (Nat.le_add_right _ _)
    · exact (time_mem_stamp hs).2

theorem create {n : ℕ} (hn : ∀ m ∈ d.wals.names, m<n) :
    Logs (l.createWal n) (d.apply (.wal (.create n))) (gens++[[n]]) := by
  have hfresh : n ∉ d.wals.names := fun hmem => lt_irrefl _ (hn n hmem)
  have hwals : (d.apply (.wal (.create n))).wals = d.wals++[(n,[])] := by
    change (if _ then _ else _) = _
    rw [if_neg hfresh]
  have hnames : (d.apply (.wal (.create n))).wals.names = d.wals.names++[n] := by
    rw [hwals,Directory.names,map_append]
    rfl
  have hempty : (l.createWal n).logs n = [] := update_self _ _ _
  have hflat : (gens++[[n]]).flatten.flatMap (l.createWal n).logs = gens.flatten.flatMap l.logs := by
    rw [flatten_append,flatten_singleton,flatMap_append,flatMap_singleton,hempty,List.append_nil]
    exact Ledger.flatMap_update (h.names ▸ hfresh) l.logs []
  refine ⟨?_,?_,?_,?_,?_⟩
  · rw [hnames,h.names,flatten_append,flatten_singleton]
  · rw [hnames]
    refine pairwise_append.mpr ⟨h.ascending,pairwise_singleton _ _,?_⟩
    intro m hm m' hm'
    rw [mem_singleton.mp hm']
    exact hn m hm
  · intro w hw
    rw [hwals] at hw
    rcases mem_append.mp hw with hw | hw
    · have hne : w.1 ≠ n := fun heq => hfresh (heq ▸ mem_map_of_mem hw)
      have hsame : (l.createWal n).logs w.1 = l.logs w.1 := update_of_ne hne _ _
      rw [hsame]
      exact h.replayed w hw
    · rw [mem_singleton.mp hw,hempty]
      rfl
  · rw [hflat]
    exact h.times
  · rw [hflat]
    exact h.clock

end

theorem unlink {n : ℕ} {front : List ℕ} {later : List (List ℕ)} (h : Logs l d ((n::front)::later)) :
    Logs l (d.apply (.wal (.unlink n))) (front::later) := by
  have hflat : ((n::front)::later).flatten = n::(front::later).flatten := rfl
  have hnames := h.names
  obtain ⟨bytes,rest,hwals,hrest⟩ : ∃ bytes rest, d.wals = (n,bytes)::rest ∧
      Directory.names rest = (front::later).flatten := by
    cases hw : d.wals with
    | nil =>
      rw [hw] at hnames
      cases hnames
    | cons w rest =>
      rw [hw,Directory.names,map_cons] at hnames
      obtain ⟨hn,htail⟩ := cons.inj hnames
      exact ⟨w.2,rest,by rw [← hn],htail⟩
  have hasc := h.ascending
  rw [hwals,Directory.names,map_cons,pairwise_cons] at hasc
  have hleft : (d.apply (.wal (.unlink n))).wals = rest := by
    change d.wals.unlink n = rest
    rw [hwals]
    exact Directory.unlink_head (fun hmem => lt_irrefl _ (hasc.1 n hmem)) bytes
  have htimes := h.times
  rw [hflat,flatMap_cons,map_append] at htimes
  refine ⟨by rw [hleft,hrest],by rw [hleft]; exact hasc.2,?_,(pairwise_append.mp htimes).2.1,?_⟩
  · intro w hw
    rw [hleft] at hw
    exact h.replayed w (by rw [hwals]; exact mem_cons_of_mem _ hw)
  · intro s hs
    refine h.clock s ?_
    exact mem_append_right _ hs

end Logs
end TitanKV.Minikv
