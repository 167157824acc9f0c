import TitanKV.Library.Parsing
import TitanKV.Minikv.Coding

/-! Data blocks. Keys are stored relative to their predecessor, with a full key at every
restart point; the offsets of the restart points and their number form the trailer. -/
namespace TitanKV.Minikv
open Parsing List Option

abbrev KeyValue := Bytes × Bytes

def restartInterval : ℕ := 16

structure BlockBuilder where
  buffer : Bytes
  lastKey : Bytes
  restarts : List ℕ
  restartCounter : ℕ
  deriving DecidableEq, Repr

/-- How many leading bytes two keys share. -/
def sharedLength : Bytes → Bytes → ℕ
  | a::as,b::bs => if a = b then sharedLength as bs + 1 else 0
  | _,_ => 0

def encodeEntry (shared : ℕ) (key value : Bytes) : Bytes :=
  encodeVariant32 shared ++ encodeVariant32 (key.length-shared) ++ encodeVariant32 value.length ++
    key.drop shared ++ value

namespace BlockBuilder

def init : BlockBuilder := ⟨[],[],[0],0⟩

def empty (b : BlockBuilder) : Bool := b.buffer.isEmpty

def size (b : BlockBuilder) : ℕ := b.buffer.length

/-- A full interval starts a new restart point, which stores its key in full. -/
def add (b : BlockBuilder) (key value : Bytes) : BlockBuilder :=
  if b.restartCounter<restartInterval then
    { b with
      buffer := b.buffer ++ encodeEntry (sharedLength b.lastKey key) key value
      lastKey := key
      restartCounter := b.restartCounter+1 }
  else
    { buffer := b.buffer ++ encodeEntry 0 key value
      lastKey := key
      restarts := b.restarts++[b.buffer.length]
      restartCounter := 1 }

/-- The trailer is appended to the buffer itself. -/
def finish (b : BlockBuilder) : BlockBuilder :=
  { b with buffer := b.buffer ++ b.restarts.flatMap encodeFixed32 ++ encodeFixed32 b.restarts.length }

end BlockBuilder

/-- `restarts_offset_` of a `BlockReader`, a `uint32_t`; blocks shorter than a count have no
entries. -/
def restartsOffset (block : Bytes) : ℕ :=
  if block.length<4 then 0
  else
    let count := decodeFixed32 (block.drop (block.length-4))
    (((block.length : ℤ)-4-(count*4 % 2^32 : ℕ)) % 2^32).toNat

/-- One entry of a block whose trailer has `trailer` bytes; lengths are read before the
trailer, key and value from what follows. The state is the key before. -/
def readEntry (trailer : ℕ) (lastKey s : Bytes) : Option (KeyValue × Bytes × Bytes) := do
  let window := s.take (s.length-trailer)
  let (shared,n₁) ← decodeVariant32 window
  let (nonShared,n₂) ← decodeVariant32 (window.drop n₁)
  let (valLen,n₃) ← decodeVariant32 (window.drop (n₁+n₂))
  let body := s.drop (n₁+n₂+n₃)
  let key := lastKey.take shared ++ body.take nonShared
  some ((key,(body.drop nonShared).take valLen),key,body.drop (nonShared+valLen))

def forEach (block : Bytes) : List KeyValue :=
  scan (readEntry (block.length-restartsOffset block)) [] block

lemma sharedLength_le (a b : Bytes) : sharedLength a b ≤ a.length ∧ sharedLength a b ≤ b.length := by
  induction a generalizing b with
  | nil => simp [sharedLength]
  | cons x a ih =>
    cases b with
    | nil => simp [sharedLength]
    | cons y b =>
      have := ih b
      rw [sharedLength]
      split
      · simp only [length_cons]
        omega
      · simp

lemma take_sharedLength (a b : Bytes) : a.take (sharedLength a b) = b.take (sharedLength a b) := by
  induction a generalizing b with
  | nil => simp [sharedLength]
  | cons x a ih =>
    cases b with
    | nil => simp [sharedLength]
    | cons y b =>
      rw [sharedLength]
      split
      · rename_i hxy
        rw [take_succ_cons,take_succ_cons,ih b,hxy]
      · rfl

lemma readEntry_consumes (trailer : ℕ) : ScanConsumes (readEntry trailer) := by
  intro lastKey s a st' rest h
  simp only [readEntry,bind_eq_bind,bind_eq_some_iff,some.injEq,Prod.mk.injEq] at h
  obtain ⟨⟨shared,n₁⟩,h₁,⟨nonShared,n₂⟩,-,⟨valLen,n₃⟩,-,-,-,rfl⟩ := h
  have hn := decodeVariant32_consumed h₁
  simp only [length_take,length_drop] at hn ⊢
  omega

lemma readEntry_trailer {trailer : ℕ} (lastKey : Bytes) {s : Bytes} (h : s.length≤trailer) :
    readEntry trailer lastKey s = none := by
  have hwindow : s.take (s.length-trailer) = [] := by rw [Nat.sub_eq_zero_of_le h,take_zero]
  simp only [readEntry,hwindow]
  rfl

theorem readEntry_encodeEntry {trailer shared : ℕ} {lastKey key : Bytes} (value : Bytes)
    (hle : shared≤key.length) (heq : lastKey.take shared = key.take shared) (hk : key.length<2^32)
    (hv : value.length<2^32) {rest : Bytes} (hrest : trailer≤rest.length) :
    readEntry trailer lastKey (encodeEntry shared key value ++ rest) = some ((key,value),key,rest) := by
  have hwindow : (encodeEntry shared key value ++ rest).take
      ((encodeEntry shared key value ++ rest).length-trailer) =
        encodeVariant32 shared ++ (encodeVariant32 (key.length-shared) ++ (encodeVariant32 value.length ++
          (key.drop shared ++ value ++ rest.take (rest.length-trailer)))) := by
    have hlen : (encodeEntry shared key value ++ rest).length-trailer =
        (encodeEntry shared key value).length + (rest.length-trailer) := by
      rw [length_append]
      omega
    rw [hlen,take_length_add_append,encodeEntry]
    simp only [append_assoc]
  have hbody : (((encodeEntry shared key value ++ rest).drop (encodeVariant32 shared).length).drop
      (encodeVariant32 (key.length-shared)).length).drop (encodeVariant32 value.length).length =
        key.drop shared ++ (value++rest) := by
    simp only [encodeEntry,append_assoc,drop_left]
  have hkeyLength : (key.drop shared).length = key.length-shared := length_drop
  have hwhole : lastKey.take shared ++ key.drop shared = key := by rw [heq,take_append_drop]
  simp only [readEntry,hwindow]
  rw [decodeVariant32_encode (by omega)]
  simp only [bind_eq_bind,bind_some,drop_left]
  rw [decodeVariant32_encode (by omega)]
  simp only [bind_some,← drop_drop,drop_left]
  rw [decodeVariant32_encode hv]
  simp only [bind_some,hbody,take_left' hkeyLength,drop_left' hkeyLength,hwhole,
    take_left,drop_left]

def lastKeyOf (lastKey : Bytes) (es : List KeyValue) : Bytes := (es.getLast?.map Prod.fst).getD lastKey

/-- These bytes store these entries, relative to `lastKey`. -/
inductive Encoded : Bytes → List KeyValue → Bytes → Prop
  | nil (lastKey : Bytes) : Encoded lastKey [] []
  | cons {lastKey key value bs : Bytes} {es : List KeyValue} {shared : ℕ} (hle : shared≤key.length)
      (heq : lastKey.take shared = key.take shared) (tail : Encoded key es bs) :
      Encoded lastKey ((key,value)::es) (encodeEntry shared key value ++ bs)

namespace Encoded
variable {lastKey key bs : Bytes} {es : List KeyValue} {shared : ℕ}

lemma lastKeyOf_cons (lastKey : Bytes) (e : KeyValue) (es : List KeyValue) :
    lastKeyOf lastKey (e::es) = lastKeyOf e.1 es := by
  cases es with
  | nil => rfl
  | cons e' es =>
    rfl

theorem snoc (h : Encoded lastKey es bs) (value : Bytes) (hle : shared≤key.length)
    (heq : (lastKeyOf lastKey es).take shared = key.take shared) :
    Encoded lastKey (es++[(key,value)]) (bs ++ encodeEntry shared key value) := by
  induction h with
  | nil lastKey =>
    rw [nil_append,nil_append,← append_nil (encodeEntry shared key value)]
    exact .cons hle heq (.nil key)
  | cons hle' heq' tail ih =>
    rw [lastKeyOf_cons] at heq
    rw [append_assoc]
    exact .cons hle' heq' (ih heq)

/-- Reading stops where the trailer begins and gives the entries back. -/
theorem scan_eq (h : Encoded lastKey es bs) (hfit : ∀ e ∈ es, e.1.length<2^32 ∧ e.2.length<2^32)
    (trailer : Bytes) : scan (readEntry trailer.length) lastKey (bs++trailer) = es := by
  induction h with
  | nil lastKey => exact scan_of_none (readEntry_trailer lastKey le_rfl)
  | @cons lastKey key value bs es shared hle heq tail ih =>
    obtain ⟨hk,hv⟩ := hfit (key,value) (by simp)
    have hread : readEntry trailer.length lastKey (encodeEntry shared key value ++ (bs++trailer)) = _ :=
      readEntry_encodeEntry value hle heq hk hv (by simp)
    rw [append_assoc,scan_of_some (readEntry_consumes _) hread,
      ih fun e he => hfit e (by simp [he])]

lemma length_le (h : Encoded lastKey es bs) {e : KeyValue} (he : e ∈ es) :
    e.1.length≤lastKey.length+bs.length ∧ e.2.length≤bs.length := by
  induction h with
  | nil => simp at he
  | @cons lastKey key value bs es shared hle heq tail ih =>
    have hshared := congrArg length heq
    have hentry : key.length-shared+value.length≤(encodeEntry shared key value).length := by
      simp only [encodeEntry,length_append,length_drop]
      omega
    simp only [length_take] at hshared
    rw [length_append]
    rcases mem_cons.mp he with rfl | he
    · dsimp only
      omega
    · have := ih he
      omega

end Encoded

/-- A bound for what an entry takes in a block, in the index and in the trailer together. -/
def entrySize (e : KeyValue) : ℕ := e.1.length+e.2.length+32

def totalSize (es : List KeyValue) : ℕ := (es.map entrySize).sum

@[simp] theorem totalSize_append (es more : List KeyValue) :
    totalSize (es++more) = totalSize es + totalSize more := by
  simp [totalSize]

@[simp] theorem totalSize_nil : totalSize [] = 0 := rfl

@[simp] theorem totalSize_cons (e : KeyValue) (es : List KeyValue) :
    totalSize (e::es) = entrySize e + totalSize es := by
  simp [totalSize]

lemma entrySize_le_totalSize {e : KeyValue} {es : List KeyValue} (h : e ∈ es) :
    entrySize e ≤ totalSize es :=
  single_le_sum (fun _ _ => Nat.zero_le _) _ (mem_map_of_mem h)

lemma length_encodeEntry_le (shared : ℕ) (key value : Bytes) :
    (encodeEntry shared key value).length+17 ≤ entrySize (key,value) := by
  have h₁ := length_encodeVariant32_le shared
  have h₂ := length_encodeVariant32_le (key.length-shared)
  have h₃ := length_encodeVariant32_le value.length
  simp only [encodeEntry,entrySize,length_append,length_drop]
  omega

/-- The state of a builder that was given these entries. -/
structure BlockBuilder.Holds (b : BlockBuilder) (es : List KeyValue) : Prop where
  encoded : Encoded [] es b.buffer
  lastKey : b.lastKey = lastKeyOf [] es
  size : b.buffer.length+17*es.length ≤ totalSize es
  counter : b.restartCounter≤16
  restarts : 16*b.restarts.length+b.restartCounter = es.length+16

namespace BlockBuilder.Holds
variable {b : BlockBuilder} {es : List KeyValue}

lemma init : BlockBuilder.init.Holds [] := ⟨.nil [],rfl,le_rfl,by decide,rfl⟩

theorem add (h : b.Holds es) (key value : Bytes) : (b.add key value).Holds (es++[(key,value)]) := by
  have hlast : lastKeyOf [] (es++[(key,value)]) = key := by simp [lastKeyOf]
  have hcount := h.restarts
  have hsize := h.size
  rw [BlockBuilder.add]
  split
  · rename_i hc
    have hentry := length_encodeEntry_le (sharedLength b.lastKey key) key value
    refine ⟨h.encoded.snoc value (sharedLength_le _ _).2 ?_,hlast.symm,?_,hc,?_⟩
    · rw [← h.lastKey]
      exact take_sharedLength _ _
    · simp only [length_append,length_singleton,totalSize_append,totalSize_cons,totalSize_nil]
      omega
    · simp only [length_append,length_singleton]
      omega
  · rename_i hc
    have hentry := length_encodeEntry_le 0 key value
    have hfull : b.restartCounter = 16 := by
      have := h.counter
      rw [restartInterval] at hc
      omega
    refine ⟨h.encoded.snoc value (Nat.zero_le _) rfl,hlast.symm,?_,Nat.le_add_left 1 15,?_⟩
    · simp only [length_append,length_singleton,totalSize_append,totalSize_cons,totalSize_nil]
      omega
    · simp only [length_append,length_singleton]
      omega

lemma length_finish (b : BlockBuilder) :
    b.finish.buffer.length = b.buffer.length + (4*b.restarts.length+4) := by
  simp [finish,length_flatMap,Nat.mul_comm]

lemma length_finish_le (h : b.Holds es) (hne : es ≠ []) : b.finish.buffer.length ≤ totalSize es := by
  have hpos := length_pos_iff.mpr hne
  have hcount := h.restarts
  have hsize := h.size
  rw [length_finish]
  omega

lemma restartsOffset_finish (b : BlockBuilder) (h : b.finish.buffer.length<2^32) :
    restartsOffset b.finish.buffer = b.buffer.length := by
  have hlen := length_finish b
  have hdrop : b.finish.buffer.drop (b.finish.buffer.length-4) = encodeFixed32 b.restarts.length := by
    have hcut : b.finish.buffer.length-4 =
        (b.buffer ++ b.restarts.flatMap encodeFixed32).length := by
      rw [finish,length_append,length_encodeFixed32,Nat.add_sub_cancel]
    rw [hcut,finish,drop_left]
  have hcount : decodeFixed32 (encodeFixed32 b.restarts.length) = b.restarts.length := by
    have hd := decodeFixed32_encode b.restarts.length []
    rwa [append_nil,Nat.mod_eq_of_lt (by omega)] at hd
  rw [restartsOffset,if_neg (by omega),hdrop,hcount]
  dsimp only
  omega

theorem forEach_finish (h : b.Holds es) (hblock : b.finish.buffer.length<2^32) :
    forEach b.finish.buffer = es := by
  have hlen := length_finish b
  have hbuffer : b.finish.buffer =
      b.buffer++(b.restarts.flatMap encodeFixed32 ++ encodeFixed32 b.restarts.length) := by
    rw [finish,append_assoc]
  have htrailer : b.finish.buffer.length-restartsOffset b.finish.buffer =
      (b.restarts.flatMap encodeFixed32 ++ encodeFixed32 b.restarts.length).length := by
    rw [restartsOffset_finish b hblock,hbuffer,length_append]
    omega
  rw [forEach,htrailer,hbuffer]
  apply h.encoded.scan_eq
  intro e he
  have hentry := h.encoded.length_le he
  rw [length_nil] at hentry
  omega

end BlockBuilder.Holds

def BlockBuilder.addAll (es : List KeyValue) : BlockBuilder := es.foldl (fun b e => b.add e.1 e.2) init

/-- An entry begins at the offset, and its key is stored in full. -/
def StartsInFull (buffer : Bytes) (es : List KeyValue) (offset : ℕ) : Prop :=
  ∃ (before after : List KeyValue) (key value front rest : Bytes), es = before ++ (key,value)::after ∧
    Encoded [] before front ∧ front.length = offset ∧ buffer = front++(encodeEntry 0 key value ++ rest)

namespace BlockBuilder
variable {es : List KeyValue}

lemma addAll_snoc (es : List KeyValue) (e : KeyValue) : addAll (es++[e]) = (addAll es).add e.1 e.2 :=
  foldl_append

lemma holds_addAll (es : List KeyValue) : (addAll es).Holds es := by
  induction es using reverseRecOn with
  | nil => exact Holds.init
  | append_singleton es e ih =>
    rw [addAll_snoc]
    exact ih.add e.1 e.2

lemma StartsInFull.append {buffer : Bytes} {offset : ℕ} (h : StartsInFull buffer es offset) (es' : List KeyValue)
    (more : Bytes) : StartsInFull (buffer++more) (es++es') offset := by
  obtain ⟨before,after,key,value,front,rest,rfl,hfront,hlength,rfl⟩ := h
  exact ⟨before,after++es',key,value,front,rest++more,by simp,hfront,hlength,by simp⟩

/-- The first restart point is there before the first entry, which shares nothing with the empty key. -/
lemma startsInFull_addAll (hne : es ≠ []) :
    ∀ offset ∈ (addAll es).restarts, StartsInFull (addAll es).buffer es offset := by
  induction es using reverseRecOn with
  | nil => exact absurd rfl hne
  | append_singleton es e ih =>
    rw [addAll_snoc]
    rcases eq_or_ne es [] with rfl | hes
    · intro offset ho
      rw [mem_singleton.mp ho]
      exact ⟨[],[],e.1,e.2,[],[],rfl,.nil [],rfl,(append_nil _).symm⟩
    · rw [BlockBuilder.add]
      split
      · intro offset ho
        exact StartsInFull.append (ih hes offset ho) [e] _
      · intro offset ho
        rcases mem_append.mp ho with ho | ho
        · exact StartsInFull.append (ih hes offset ho) [e] _
        · rw [mem_singleton.mp ho]
          exact ⟨es,[],e.1,e.2,_,[],rfl,(holds_addAll es).encoded,rfl,by simp⟩

/-- The entries are read back from the finished block, and a restart point is an entry with a full key. -/
theorem addAll_roundTrip (hne : es ≠ []) (hblock : (addAll es).finish.buffer.length<2^32) :
    forEach (addAll es).finish.buffer = es ∧
      ∀ offset ∈ (addAll es).finish.restarts, StartsInFull (addAll es).finish.buffer es offset := by
  refine ⟨(holds_addAll es).forEach_finish hblock,fun offset ho => ?_⟩
  have hstart := StartsInFull.append (startsInFull_addAll hne offset ho) []
  rw [append_nil] at hstart
  rw [finish,append_assoc]
  exact hstart _

theorem addAll_roundTrip_unsorted : forEach (addAll [([98,97],[1]),([98],[]),([],[2])]).finish.buffer =
      [([98,97],[1]),([98],[]),([],[2])] ∧ ∀ offset ∈ (addAll [([98,97],[1]),([98],[]),([],[2])]).finish.restarts,
      StartsInFull (addAll [([98,97],[1]),([98],[]),([],[2])]).finish.buffer
        [([98,97],[1]),([98],[]),([],[2])] offset :=
  addAll_roundTrip (by decide) (by decide)

end BlockBuilder
end TitanKV.Minikv
