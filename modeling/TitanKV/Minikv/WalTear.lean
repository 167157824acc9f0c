import TitanKV.Minikv.Wal

/-! Appending behind a torn record. A crash inside `append`, or an `append` that fails
after a partial `write`, leaves a prefix of its record in the file; the file is opened with
`O_APPEND` and neither recovery nor the error path cuts that prefix off again. -/
namespace TitanKV.Minikv
open List WriteOutcome

inductive WalEvent
  | append (data : Bytes) (header payload : WriteOutcome)
  | crash (data : Bytes) (n : ℕ)
  deriving DecidableEq, Repr

namespace WalEvent

def data : WalEvent → Bytes
  | append data _ _ => data
  | crash data _ => data

/-- The bytes the event adds to the file. -/
def added : WalEvent → Bytes
  | append data header payload => (walAppend [] data header payload).2
  | crash data n => (walRecord data).take n

def acknowledged : WalEvent → Bool
  | append data header payload => (walAppend [] data header payload).1.ok
  | crash _ _ => false

def whole (e : WalEvent) : Bool := e.added = walRecord e.data

lemma whole_iff {e : WalEvent} : e.whole = true ↔ e.added = walRecord e.data := by simp [whole]

end WalEvent

/-- A log file in use: its bytes, the payloads of its complete records in order, and
whether the bytes end in a torn record. -/
structure WalFile where
  file : Bytes
  complete : List Bytes
  torn : Bool

namespace WalFile

def fresh : WalFile := ⟨[],[],false⟩

def step (s : WalFile) (e : WalEvent) : WalFile where
  file := s.file++e.added
  complete := if e.whole then s.complete++[e.data] else s.complete
  torn := s.torn || (!e.added.isEmpty && !e.whole)

def run (s : WalFile) (events : List WalEvent) : WalFile := events.foldl step s

/-- No event writes to the file while it ends in a torn record. -/
def ClearOfTears : WalFile → List WalEvent → Prop
  | _,[] => True
  | s,e::es => (s.torn = true → e.added = []) ∧ ClearOfTears (s.step e) es

/-- The bytes are the complete records, followed by the beginning of one more if torn. -/
structure Framed (s : WalFile) : Prop where
  small : ∀ data ∈ s.complete, data.length<2^32
  clean : s.torn = false → s.file = s.complete.flatMap walRecord
  torn : s.torn = true → ∃ data n, data.length<2^32 ∧ n<(walRecord data).length ∧
    s.file = s.complete.flatMap walRecord ++ (walRecord data).take n

end WalFile

lemma walAppend_file (file data : Bytes) (header payload : WriteOutcome) :
    (walAppend file data header payload).2 = file++(walAppend [] data header payload).2 := by
  unfold walAppend
  split
  · simp
  · split <;> simp

lemma walAppend_status (file data : Bytes) (header payload : WriteOutcome) :
    (walAppend file data header payload).1 = (walAppend [] data header payload).1 := by
  unfold walAppend
  split
  · rfl
  · split <;> rfl

lemma written_walHeader_of_ret {header : WriteOutcome} {data : Bytes} (h : header.ret (walHeader data) = 8) :
    header.written (walHeader data) = walHeader data := by
  apply written_of_ret
  exact h

theorem added_eq_take (e : WalEvent) : ∃ n, e.added = (walRecord e.data).take n := by
  cases e with
  | crash data n => exact ⟨n,rfl⟩
  | append data header payload =>
    obtain ⟨n,hn⟩ := header.written_eq_take (walHeader data)
    obtain ⟨m,hm⟩ := payload.written_eq_take (walPayload data)
    simp only [WalEvent.added,WalEvent.data,walAppend,nil_append]
    split
    · refine ⟨min n 8,?_⟩
      rw [walRecord,take_append_of_le_length (by simp),hn,take_eq_take_min,length_walHeader]
    · rename_i hr
      have hw := written_walHeader_of_ret (not_not.mp hr)
      split
      · refine ⟨8+m,?_⟩
        rw [hw,hm,walRecord,take_append,length_walHeader]
        simp
      · exact ⟨(walRecord data).length,by rw [hw,take_length,walRecord]⟩

lemma WriteOutcome.written_of_ret_ne {o : WriteOutcome} {buf : Bytes} (hne : 0<buf.length)
    (h : o.ret buf ≠ buf.length) : ∃ n < buf.length, o.written buf = buf.take n := by
  cases o with
  | full => exact (h rfl).elim
  | short n =>
    refine ⟨n,?_,rfl⟩
    by_contra hn
    exact h (by rw [ret,take_of_length_le (not_lt.mp hn)])
  | error => exact ⟨0,hne,rfl⟩

theorem walAppend_failed {data : Bytes} {header payload : WriteOutcome}
    (h : (walAppend [] data header payload).1.ok = false) :
    ∃ n < (walRecord data).length, (walAppend [] data header payload).2 = (walRecord data).take n := by
  have hlen : (walRecord data).length = 8+(walPayload data).length := by
    rw [walRecord,length_append,length_walHeader]
  rw [walAppend] at h ⊢
  split
  · obtain ⟨n,hn,hw⟩ := @written_of_ret_ne header (walHeader data) (by simp)
      (by rwa [length_walHeader])
    rw [length_walHeader] at hn
    refine ⟨n,by omega,?_⟩
    rw [nil_append,hw,walRecord,take_append_of_le_length (by rw [length_walHeader]; omega)]
  · rename_i hr
    have hheader : header.written (walHeader data) = walHeader data := by
      apply written_of_ret
      exact not_not.mp hr
    rw [if_neg hr] at h
    split
    · rename_i hp
      obtain ⟨n,hn,hw⟩ := written_of_ret_ne hp.1 hp.2
      have hwhole : (walHeader data).take (8+n) = walHeader data :=
        take_of_length_le (by rw [length_walHeader]; omega)
      refine ⟨8+n,by omega,?_⟩
      rw [nil_append,hheader,hw,walRecord,take_append,length_walHeader,hwhole,Nat.add_sub_cancel_left]
    · rename_i hp
      rw [if_neg hp] at h
      cases h

theorem whole_of_acknowledged {e : WalEvent} (h : e.acknowledged = true) : e.whole = true := by
  cases e with
  | crash data n => simp [WalEvent.acknowledged] at h
  | append data header payload =>
    apply WalEvent.whole_iff.mpr
    simp only [WalEvent.acknowledged,walAppend] at h
    simp only [WalEvent.added,WalEvent.data,walAppend]
    split at h
    · simp at h
    · rename_i hr
      have hw := written_walHeader_of_ret (not_not.mp hr)
      split at h
      · simp at h
      · rename_i hp
        rw [if_neg hr,if_neg hp,hw,walRecord,nil_append]

namespace WalFile

theorem framed_fresh : fresh.Framed := by
  refine ⟨by simp [fresh],fun _ => rfl,?_⟩
  intro h
  simp [fresh] at h

variable {s : WalFile}

theorem Framed.step (h : s.Framed) {e : WalEvent} (hsize : e.data.length<2^32)
    (hclear : s.torn = true → e.added = []) : (s.step e).Framed := by
  have hrecord : walRecord e.data ≠ [] := by
    intro hnil
    have hl := congrArg length hnil
    simp [walRecord] at hl
  by_cases hadd : e.added = []
  · have hwhole : e.whole = false := by
      simp only [WalEvent.whole,hadd,decide_eq_false_iff_not]
      exact fun heq => hrecord heq.symm
    have hs : s.step e = s := by simp [WalFile.step,hadd,hwhole]
    rwa [hs]
  · have htorn : s.torn = false := by
      by_contra ht
      exact hadd (hclear (by simpa using ht))
    have hfile := h.clean htorn
    by_cases hwhole : e.whole = true
    · have heq : e.added = walRecord e.data := by simpa [WalEvent.whole] using hwhole
      refine ⟨?_,?_,?_⟩
      · intro data hd
        simp only [WalFile.step,hwhole,if_true,mem_append,mem_singleton] at hd
        rcases hd with hd | rfl
        · exact h.small data hd
        · exact hsize
      · intro _
        simp [WalFile.step,hwhole,hfile,heq]
      · intro ht
        simp [WalFile.step,htorn,hwhole] at ht
    · have hwf : e.whole = false := by simpa using hwhole
      obtain ⟨n,hn⟩ := added_eq_take e
      have hlt : n<(walRecord e.data).length := by
        by_contra hge
        apply hwhole
        rw [WalEvent.whole_iff,hn]
        exact take_of_length_le (by omega)
      refine ⟨?_,?_,?_⟩
      · simpa [WalFile.step,hwf] using h.small
      · intro ht
        simp [WalFile.step,htorn,hwf,hadd] at ht
      · intro _
        refine ⟨e.data,n,hsize,hlt,?_⟩
        simp [WalFile.step,hwf,hfile,hn]

theorem Framed.run (h : s.Framed) {events : List WalEvent}
    (hsize : ∀ e ∈ events, e.data.length<2^32) (hclear : s.ClearOfTears events) :
    (s.run events).Framed := by
  induction events generalizing s with
  | nil => exact h
  | cons e es ih =>
    obtain ⟨he,hes⟩ := hclear
    exact ih (h.step (hsize e (by simp)) he) (fun x hx => hsize x (by simp [hx])) hes

theorem Framed.replay (h : s.Framed) : walReplay s.file = s.complete := by
  cases ht : s.torn with
  | false =>
    have hr := walReplay_append s.complete [] h.small
    rw [append_nil] at hr
    rw [h.clean ht,hr,walReplay_nil,append_nil]
  | true =>
    obtain ⟨data,n,hsize,hn,hfile⟩ := h.torn ht
    rw [hfile,walReplay_append _ _ h.small,walReplay_cut hn,append_nil]

lemma run_complete_of_acknowledged (s : WalFile) {later : List WalEvent}
    (h : ∀ e ∈ later, e.acknowledged = true) :
    (s.run later).complete = s.complete ++ later.map WalEvent.data := by
  induction later generalizing s with
  | nil => simp [run]
  | cons e es ih =>
    have hw := whole_of_acknowledged (h e (by simp))
    have htail := ih (s.step e) (fun x hx => h x (by simp [hx]))
    change ((s.step e).run es).complete = _
    rw [htail]
    simp [WalFile.step,hw]

/-- Replaying the file returns the earlier complete payloads and then all the later ones. -/
def ReplaysAll (events later : List WalEvent) : Prop :=
  walReplay (fresh.run (events++later)).file =
    (fresh.run events).complete ++ later.map WalEvent.data

/-- As long as nothing is written behind a torn record, replay loses no acknowledged
append, whatever the failures and crashes before it. -/
theorem replaysAll_of_clearOfTears (events later : List WalEvent)
    (hsize : ∀ e ∈ events ++ later, e.data.length<2^32)
    (hlater : ∀ e ∈ later, e.acknowledged = true)
    (hclear : fresh.ClearOfTears (events++later)) : ReplaysAll events later := by
  have hr := (framed_fresh.run hsize hclear).replay
  rw [ReplaysAll,hr]
  have hrun : fresh.run (events++later) = (fresh.run events).run later := foldl_append
  rw [hrun,run_complete_of_acknowledged _ hlater]

/-- A failed append that left no byte behind does no harm. -/
theorem replaysAll_after_clean_failure :
    ReplaysAll [.append [1] .full .full,.append [2] .error .full] [.append [3] .full .full] :=
  replaysAll_of_clearOfTears _ _ (by decide) (by decide) (by
    refine ⟨?_,?_,?_,trivial⟩ <;> decide)

/-- The header of `[1]` reached the file, its payload did not. The next append returns Ok,
and replay takes its first byte for the missing payload. -/
theorem not_replaysAll_behind_tear :
    (WalEvent.append [2] .full .full).acknowledged = true ∧
      ¬ ReplaysAll [.append [1] .full (.short 0)] [.append [2] .full .full] := by
  refine ⟨by decide,?_⟩
  unfold ReplaysAll
  decide +kernel

end WalFile
end TitanKV.Minikv
