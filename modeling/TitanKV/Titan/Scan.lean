import TitanKV.Titan.Client
import TitanKV.Library.Incremental
import TitanKV.Library.Searching

/-! `Scan` of the SDK. The client cuts the stream of the service at the empty lines and calls the callback for every
block that holds a pair. The other events are passed over, and the end of the stream counts as the end of the
scan. -/
namespace TitanKV.Titan
open Minikv Services.Data Searching List Option Service Incremental

/-- A pair for a block of more than the tag that can be read. -/
def pairOf (line : Bytes) : Option KVPair :=
  if 6<line.length ∧ line.take 6 = ascii "data: ".toList then KVPair.unmarshal (line.drop 6) else none

/-- One block of the buffer. The callback, which may depend on the calls before, says whether it takes a pair. -/
def scanStep (fn : List KVPair → KVPair → Bool) : Machine (List KVPair) (List KVPair × KVPair) UInt8 :=
  fun calls buf =>
    (find [10,10] buf).map fun idx =>
      match pairOf (buf.take idx) with
      | none => .inr (calls,buf.drop (idx+2))
      | some pair => if fn calls pair then .inr (calls++[pair],buf.drop (idx+2)) else .inl (calls,pair)

/-- What the client gets to see: the reads before the last one, that one, and whether it is the end of the file; it
is another error otherwise. -/
inductive Reply
  | unreachable
  | refused (status : ℕ) (notOk : status ≠ 200)
  | stream (chunks : List Bytes) (last : Bytes) (eof : Bool)

structure Scanned where
  calls : List KVPair := []
  count : ℕ := 0
  err : Option ClientError
  deriving DecidableEq,Repr

/-- The loop over the reads. One of nothing finds no further block in the buffer. -/
def readAll (fn : List KVPair → KVPair → Bool) (reads : List Bytes) :
    Outcome (List KVPair) (List KVPair × KVPair) UInt8 :=
  reads.foldl (fun o tmp => o.feed (scanStep fn) tmp) (.waiting [] [])

def Client.scan (fn : List KVPair → KVPair → Bool) : Reply → Scanned
  | .unreachable => { err := some .transport }
  | .refused status _ => { err := some (mapError status) }
  | .stream chunks last eof =>
    match readAll fn (chunks++[last]) with
    | .done (calls,pair) => ⟨calls++[pair],calls.length,some .callback⟩
    | .waiting calls _ => ⟨calls,calls.length,if eof then none else some .transport⟩

namespace Reply

def Carries : Reply → Bytes → Prop
  | .stream chunks last _,delivered => chunks.flatten++last = delivered
  | _,_ => True

def failed : Reply → Bool
  | .stream _ _ eof => !eof
  | _ => true

end Reply

/-- A scan without an error has called the callback with the pairs of the range and has seen the end of the stream,
of which `cut` bytes are delivered. -/
def ReportsCompleteness (items : List KVPair) (fails : Option Quoted) (cut : ℕ)
    (fn : List KVPair → KVPair → Bool) (reply : Reply) : Prop :=
  (Client.scan fn reply).err = none →
    (Client.scan fn reply).calls = items ∧ fails = none ∧ (scan items none).length≤cut

/-- The blocks within the bytes that are delivered. -/
def arrived : ℕ → List Bytes → List Bytes
  | _,[] => []
  | cut,b::bs => if b.length+2≤cut then b::arrived (cut-(b.length+2)) bs else []

def arrivedPairs (cut : ℕ) (blocks : List Bytes) : List KVPair := (arrived cut blocks).filterMap pairOf

def accepts (fn : List KVPair → KVPair → Bool) : List KVPair → List KVPair → Bool
  | _,[] => true
  | calls,p::ps => fn calls p && accepts fn (calls++[p]) ps

/-- The first empty line behind a block is the one that ends it. -/
def Line (b : Bytes) : Prop := find [10,10] (b++[10,10]) = some b.length

section Machine
variable {fn : List KVPair → KVPair → Bool} {calls : List KVPair} {b t : Bytes}

lemma consumes_scanStep (fn : List KVPair → KVPair → Bool) : Consumes (scanStep fn) := by
  intro calls buf calls' rest h
  obtain ⟨idx,hidx,heq⟩ := map_eq_some_iff.mp h
  have hrest : rest = buf.drop (idx+2) := by
    split at heq
    · cases heq; rfl
    · split at heq
      · cases heq; rfl
      · cases heq
  have hle : idx+2≤buf.length := add_length_le_of_find hidx
  rw [hrest,length_drop]
  omega

lemma scanStep_append {idx : ℕ} (h : find [10,10] b = some idx) (t : Bytes) :
    scanStep fn calls (b++t) = (scanStep fn calls b).map fun o => o.map id fun s => (s.1,s.2++t) := by
  have hle : idx+2≤b.length := add_length_le_of_find h
  rw [scanStep,scanStep,find_append h t,h,map_some,map_some,map_some,
    take_append_of_le_length (by omega),drop_append_of_le_length hle]
  split
  · rfl
  · split <;> rfl

lemma stable_scanStep (fn : List KVPair → KVPair → Bool) : Stable (scanStep fn) where
  done calls buf r h t := by
    obtain ⟨idx,hidx,-⟩ := map_eq_some_iff.mp h
    rw [scanStep_append hidx,h]
    rfl
  next calls buf calls' rest h t := by
    obtain ⟨idx,hidx,-⟩ := map_eq_some_iff.mp h
    rw [scanStep_append hidx,h]
    rfl

lemma readAll_eq (fn : List KVPair → KVPair → Bool) (reads : List Bytes) :
    readAll fn reads = run (scanStep fn) [] reads.flatten := by
  induction reads using reverseRecOn with
  | nil => rfl
  | append_singleton reads tmp ih =>
    rw [readAll] at ih
    rw [readAll,foldl_append,ih,flatten_append,
      run_append (consumes_scanStep fn) (stable_scanStep fn)]
    simp

lemma Line.take_eq_none (h : Line b) {n : ℕ} (hn : n<b.length+2) (t : Bytes) :
    find [10,10] ((b++[10,10]++t).take n) = none := by
  have hlen : (b++[10,10]).length = b.length+2 := by simp
  rw [take_append_of_le_length (by omega)]
  cases hfind : find [10,10] ((b++[10,10]).take n) with
  | none => rfl
  | some i =>
    have hall := find_append hfind ((b++[10,10]).drop n)
    rw [take_append_drop,h] at hall
    have hle : i+2≤_ := add_length_le_of_find hfind
    rw [length_take] at hle
    cases hall
    omega

lemma Line.scanStep_eq (h : Line b) (fn : List KVPair → KVPair → Bool) (calls : List KVPair) (t : Bytes) :
    scanStep fn calls (b++[10,10]++t) = some (match pairOf b with
      | none => .inr (calls,t)
      | some pair => if fn calls pair then .inr (calls++[pair],t) else .inl (calls,pair)) := by
  have hdrop : (b++[10,10]++t).drop (b.length+2) = t := drop_left' (by simp)
  rw [scanStep,find_append h t,map_some,hdrop,append_assoc,take_left]

/-- The machine over the blocks: it waits behind those that have arrived, or a call was refused. -/
theorem run_blocks {blocks : List Bytes} (h : ∀ b ∈ blocks, Line b) (cut : ℕ) (calls : List KVPair) :
    if accepts fn calls (arrivedPairs cut blocks) then
      ∃ rest, run (scanStep fn) calls ((blocks.flatMap (· ++ [10,10])).take cut) =
        .waiting (calls ++ arrivedPairs cut blocks) rest
    else ∃ r, run (scanStep fn) calls ((blocks.flatMap (· ++ [10,10])).take cut) = .done r := by
  induction blocks generalizing cut calls with
  | nil =>
    refine ⟨[],?_⟩
    rw [flatMap_nil,take_nil,run_of_none rfl]
    simp [arrivedPairs,arrived]
  | cons b blocks ih =>
    have hb := h b mem_cons_self
    have hrec := ih fun x hx => h x (mem_cons_of_mem b hx)
    rw [flatMap_cons,arrivedPairs,arrived]
    by_cases hcut : b.length+2≤cut
    · have htake : ((b++[10,10]) ++ blocks.flatMap (· ++ [10,10])).take cut =
          b++[10,10] ++ (blocks.flatMap (· ++ [10,10])).take (cut-(b.length+2)) := by
        rw [take_append,take_of_length_le (by simpa using hcut)]
        simp
      have hstep := hb.scanStep_eq fn calls ((blocks.flatMap (· ++ [10,10])).take (cut-(b.length+2)))
      rw [if_pos hcut,htake]
      cases hpair : pairOf b with
      | none =>
        rw [hpair] at hstep
        rw [run_of_next (consumes_scanStep fn) hstep,filterMap_cons_none hpair]
        exact hrec _ calls
      | some pair =>
        rw [hpair] at hstep
        rw [filterMap_cons_some hpair,accepts]
        cases hfn : fn calls pair with
        | true =>
          simp only [hfn,if_true] at hstep
          rw [run_of_next (consumes_scanStep fn) hstep,Bool.true_and]
          have hnext := hrec (cut-(b.length+2)) (calls++[pair])
          rw [append_assoc,singleton_append] at hnext
          exact hnext
        | false =>
          simp only [hfn,Bool.false_eq_true,if_false] at hstep
          exact ⟨_,run_of_done hstep⟩
    · rw [if_neg hcut,run_of_none (by rw [scanStep,hb.take_eq_none (by omega)]; rfl),
        filterMap_nil,append_nil]
      exact ⟨_,rfl⟩

end Machine

lemma arrived_of_le {blocks : List Bytes} {cut : ℕ} (h : (blocks.flatMap (· ++ [10,10])).length≤cut) :
    arrived cut blocks = blocks := by
  induction blocks generalizing cut with
  | nil => rfl
  | cons b blocks ih =>
    rw [flatMap_cons,length_append,length_append] at h
    have hlen : ([10,10] : Bytes).length = 2 := rfl
    rw [arrived,if_pos (by omega),ih (by omega)]

lemma line_of_not_mem {b : Bytes} (h : (10 : UInt8) ∉ b) : Line b := by
  have hfind := find_cons_append h [10] []
  rwa [append_nil] at hfind

lemma line_eventLines {name : List Char} (hname : (10 : UInt8) ∉ ascii name) {text : Bytes}
    (htext : (10 : UInt8) ∉ text) :
    Line (eventLines name text) := by
  have hevent : (10 : UInt8) ∉ ascii "event: ".toList ++ ascii name := by
    rw [mem_append,not_or]
    exact ⟨by decide,hname⟩
  have hdata : (10 : UInt8) ∉ ascii "data: ".toList ++ text := by
    rw [mem_append,not_or]
    exact ⟨by decide,htext⟩
  have hnext : ¬[10,10] <+: (10 : UInt8)::(ascii "data: ".toList ++ text++[10,10]) := by
    intro hpre
    have hhead := (cons_prefix_cons.mp hpre).2
    exact absurd (cons_prefix_cons.mp hhead).1 (by decide)
  rw [Line,eventLines,append_assoc,cons_append,find_skip hevent,find,if_neg hnext,line_of_not_mem hdata]
  simp only [map_some,length_append,length_cons,some.injEq]
  omega

lemma pairOf_eventLines (name : List Char) (text : Bytes) : pairOf (eventLines name text) = none := by
  rw [pairOf,if_neg]
  intro h
  exact absurd h.2 (by simp [eventLines,ascii])

section Stream
variable {items : List KVPair} (h : ∀ p ∈ items, KVPair.unmarshal p.marshal = some p ∧ (10 : UInt8) ∉ p.marshal)
include h

lemma line_of_mem_scanBlocks {fails : Option Quoted} : ∀ b ∈ scanBlocks items fails, Line b := by
  intro b hb
  cases fails with
  | some text =>
    rw [mem_singleton.mp hb]
    exact line_eventLines (by decide) text.2
  | none =>
    rcases mem_append.mp hb with hb | hb
    · obtain ⟨p,hp,rfl⟩ := mem_map.mp hb
      refine line_of_not_mem ?_
      rw [dataLine,mem_append,not_or]
      exact ⟨by decide,(h p hp).2⟩
    · rw [mem_singleton.mp hb]
      refine line_eventLines (by decide) ?_
      have hcount : (10 : UInt8) ∉ decimal items.length := not_mem_decimal (by decide)
      simp [endPayload,ascii,hcount]

lemma pairOf_dataLine {p : KVPair} (hp : p ∈ items) : pairOf (dataLine p) = some p := by
  have hlen : 0<p.marshal.length := Nat.zero_lt_of_lt p.length_value_lt_marshal
  exact (h p hp).1

lemma filterMap_scanBlocks : (scanBlocks items none).filterMap pairOf = items := by
  rw [Service.scanBlocks,filterMap_append,filterMap_cons_none (pairOf_eventLines _ _),filterMap_nil,
    append_nil,filterMap_map]
  exact (filterMap_congr fun p hp => pairOf_dataLine h hp).trans filterMap_some

lemma scan_of_carries {fails : Option Quoted} {cut : ℕ} (fn : List KVPair → KVPair → Bool) {chunks : List Bytes}
    {last : Bytes} {eof : Bool} (hreply : (Reply.stream chunks last eof).Carries ((scan items fails).take cut)) :
    if accepts fn [] (arrivedPairs cut (scanBlocks items fails)) then
      Client.scan fn (.stream chunks last eof) = ⟨arrivedPairs cut (scanBlocks items fails),
        (arrivedPairs cut (scanBlocks items fails)).length,if eof then none else some .transport⟩
    else (Client.scan fn (.stream chunks last eof)).err = some .callback := by
  have hrun := @run_blocks fn _ (@line_of_mem_scanBlocks _ h fails) cut []
  have hread : readAll fn (chunks++[last]) = run (scanStep fn) [] ((scan items fails).take cut) := by
    have hbytes : chunks.flatten++last = (scan items fails).take cut := hreply
    rw [readAll_eq,← hbytes]
    simp
  rw [← scan,← hread] at hrun
  rw [Client.scan]
  split
  · rename_i haccepts
    rw [if_pos haccepts] at hrun
    obtain ⟨rest,hrest⟩ := hrun
    rw [hrest]
    rfl
  · rename_i hrefuses
    rw [if_neg hrefuses] at hrun
    obtain ⟨r,hr⟩ := hrun
    rw [hr]

/-- The scan tells that it is incomplete only where a read fails: neither an event of the service nor a missing end
makes an error. -/
theorem reportsCompleteness_iff {fails : Option Quoted} {cut : ℕ} {fn : List KVPair → KVPair → Bool} {reply : Reply}
    (hreply : reply.Carries ((scan items fails).take cut)) :
    ReportsCompleteness items fails cut fn reply ↔
      (fails = none ∧ (scan items none).length≤cut) ∨ reply.failed = true ∨
        accepts fn [] (arrivedPairs cut (scanBlocks items fails)) = false := by
  cases reply with
  | unreachable | refused => simp [ReportsCompleteness,Client.scan,Reply.failed]
  | stream chunks last eof =>
    have hscan := scan_of_carries h fn hreply
    rw [ReportsCompleteness]
    cases haccepts : accepts fn [] (arrivedPairs cut (scanBlocks items fails)) with
    | false =>
      rw [if_neg (by simp [haccepts])] at hscan
      simp [hscan]
    | true =>
      rw [if_pos haccepts] at hscan
      rw [hscan]
      cases eof with
      | false => simp [Reply.failed]
      | true =>
        have hpairs : fails = none → (scan items none).length≤cut →
            arrivedPairs cut (scanBlocks items fails) = items := by
          rintro rfl hle
          rw [arrivedPairs,arrived_of_le hle,filterMap_scanBlocks h]
        simp only [Reply.failed,if_true,true_implies]
        constructor
        · exact fun hcomplete => .inl hcomplete.2
        · intro hcond
          obtain ⟨hfails,hle⟩ := hcond.resolve_right (by simp)
          exact ⟨hpairs hfails hle,hfails,hle⟩

end Stream

def onePair : List KVPair := [⟨[107],[118]⟩]

/-- Two reads of a stream that arrives whole. -/
theorem reportsCompleteness_of_whole :
    ReportsCompleteness onePair none 100 (fun _ _ => true)
      (.stream [(scan onePair none).take 9] ((scan onePair none).drop 9) true) :=
  (reportsCompleteness_iff (by decide +kernel) (by rw [Reply.Carries]; decide +kernel)).mpr
    (.inl (by decide +kernel))

/-- An error of the store, and a connection that is closed behind the pair: both count as complete scans. -/
theorem scan_ok_without_end :
    Client.scan (fun _ _ => true) (.stream [] (scan onePair (some ⟨[34,120,34],by decide⟩)) true) = ⟨[],0,none⟩ ∧
    Client.scan (fun _ _ => true) (.stream [] ((scan onePair none).take 31) true) = ⟨onePair,1,none⟩ ∧
    31<(scan onePair none).length := by
  decide +kernel

end TitanKV.Titan
