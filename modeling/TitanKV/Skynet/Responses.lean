import TitanKV.Skynet.Relay

/-! Complete responses of a backend, and which of them the relay hands on whole however they are read. The loop is
followed by two numbers, what has been read and what has been dropped from the buffer: `stateAt`. -/
namespace TitanKV.Skynet
open Minikv Searching List Relay

def Plain (s : Bytes) : Prop := 13 ∉ s ∧ 10 ∉ s

instance (s : Bytes) : Decidable (Plain s) := inferInstanceAs (Decidable (_ ∧ _))

/-- A header with all that stands behind its colon. -/
structure Field where
  name : Bytes
  value : Bytes
  deriving DecidableEq,Repr

def trimmed (s : Bytes) : Bytes := ((s.dropWhile isBlank).reverse.dropWhile isBlank).reverse

namespace Field

def line (f : Field) : Bytes := f.name ++ 58::f.value

def Named (f : Field) (name : Bytes) : Prop := toLower f.name = name

instance (f : Field) (name : Bytes) : Decidable (f.Named name) := inferInstanceAs (Decidable (_ = _))

end Field

def isHex (b : UInt8) : Bool := isDigit b ∨ (97≤b ∧ b≤102) ∨ (65≤b ∧ b≤70)

def hexNumeral (ds : Bytes) : ℕ :=
  ds.foldl (fun n d => n*16+(if isDigit d then d.toNat-48 else if 97≤d then d.toNat-87 else d.toNat-55)) 0

/-- The extensions of a chunk begin with a semicolon, which blanks may precede. -/
def Extensions (s : Bytes) : Prop := Plain s ∧ (s = [] ∨ (s.dropWhile isBlank).head? = some 59)

instance (s : Bytes) : Decidable (Extensions s) := inferInstanceAs (Decidable (_ ∧ _))

/-- A chunk with the text of its size and its extensions. -/
structure Chunk where
  size : Bytes
  extensions : Bytes
  data : Bytes
  sized : size ≠ [] ∧ size.all isHex = true ∧ hexNumeral size = data.length
  extended : Extensions extensions
  data_nonempty : data ≠ []

def Chunk.bytes (c : Chunk) : Bytes := c.size++c.extensions++crlf++c.data++crlf

/-- Chunks, a last chunk of size zero and trailers. -/
def ChunkCoded (body : Bytes) : Prop :=
  ∃ (chunks : List Chunk) (zeros extensions : Bytes) (trailers : List Bytes),
    zeros ≠ [] ∧ (∀ b ∈ zeros, b = 48) ∧ Extensions extensions ∧ (∀ t ∈ trailers, t ≠ [] ∧ Plain t) ∧
    body = chunks.flatMap Chunk.bytes ++ zeros++extensions++crlf++(trailers.flatMap fun t => t++crlf)++crlf

def contentLengthField : Bytes := ascii ['c','o','n','t','e','n','t','-','l','e','n','g','t','h']

def transferEncodingField : Bytes := ascii ['t','r','a','n','s','f','e','r','-','e','n','c','o','d','i','n','g']

/-- The fields say how long the body is, or that it is chunked. -/
def Framed (fields : List Field) (body : Bytes) : Prop :=
  ((∃ f ∈ fields, f.Named contentLengthField) ∧ (∀ f ∈ fields, ¬f.Named transferEncodingField) ∧
      ∀ f ∈ fields, f.Named contentLengthField → trimmed f.value ≠ [] ∧ (trimmed f.value).all isDigit = true ∧
        numeral (trimmed f.value) = body.length) ∨
    (∃ f ∈ fields, f.Named transferEncodingField) ∧
      (∀ f ∈ fields, f.Named transferEncodingField →
        toLower (trimmed f.value) = ascii ['c','h','u','n','k','e','d']) ∧ ChunkCoded body

/-- A complete response of a backend. -/
structure Response where
  statusLine : Bytes
  fields : List Field
  body : Bytes
  status_plain : statusLine ≠ [] ∧ Plain statusLine
  fields_plain : ∀ f ∈ fields, f.name ≠ [] ∧ 58 ∉ f.name ∧ Plain f.name ∧ Plain f.value
  framed : Framed fields body

namespace Response

def head (r : Response) : Bytes := r.statusLine ++ r.fields.flatMap fun f => crlf++f.line

def bytes (r : Response) : Bytes := r.head++(headEnd++r.body)

/-- A response as it is read: pieces of at most the size of the array, and then the end of the connection. -/
structure Reads (r : Response) where
  pieces : List Bytes
  whole : pieces.flatten = r.bytes
  sized : ∀ d ∈ pieces, d ≠ [] ∧ d.length≤tmpSize

def Reads.turns {r : Response} (reads : r.Reads) : List Turn :=
  (reads.pieces.map fun d => { data := d })++[{ data := [] }]

/-- However the response is read, the client has all of it when the loop is left. -/
def Relayed (r : Response) : Prop :=
  ∀ reads : r.Reads, ((relayResponse {} reads.turns).1).isSome = true ∧
    (relayResponse {} reads.turns).2.written = r.bytes

end Response

section Head
variable {r : Response} {x : ℕ}

lemma find_headEnd_line {y : UInt8} (hy : y ≠ 13) (s : Bytes) :
    find headEnd (crlf ++ y::s) = (find headEnd (y::s)).map (·+2) := by
  have hfirst : ¬headEnd <+: 13::10::y::s := by
    simp [headEnd,Ne.symm hy]
  have hsecond : ¬headEnd <+: 10::y::s := by
    simp [headEnd]
  have hunfold : find headEnd (crlf ++ y::s) = ((find headEnd (y::s)).map (·+1)).map (·+1) := by
    rw [crlf,cons_append,cons_append,nil_append,find,if_neg hfirst,find,if_neg hsecond]
  rw [hunfold,Option.map_map]
  rfl

lemma find_headEnd_lines {l : Bytes} {ls : List Bytes} (hl : l ≠ [] ∧ 13 ∉ l) (hls : ∀ l ∈ ls, l ≠ [] ∧ 13 ∉ l)
    (rest : Bytes) :
    find headEnd ((l ++ ls.flatMap fun l => crlf++l)++(headEnd++rest)) =
      some (l ++ ls.flatMap fun l => crlf++l).length := by
  induction ls generalizing l with
  | nil =>
    have hfind := find_cons_append hl.2 [10,13,10] rest
    simpa [headEnd] using hfind
  | cons l' ls ih =>
    have hl' := hls l' mem_cons_self
    have hrest := ih hl' fun l hl => hls l (mem_cons_of_mem _ hl)
    obtain ⟨y,t,rfl⟩ := exists_cons_of_ne_nil hl'.1
    have hy : y ≠ 13 := fun h => hl'.2 (h ▸ mem_cons_self)
    have hsplit : (l ++ ((y::t)::ls).flatMap fun l => crlf++l)++(headEnd++rest) =
        l++(crlf ++ y::(t++(ls.flatMap fun l => crlf++l)++(headEnd++rest))) := by simp
    have hskip : find headEnd (l++(crlf ++ y::(t++(ls.flatMap fun l => crlf++l)++(headEnd++rest)))) =
        (find headEnd (crlf ++ y::(t++(ls.flatMap fun l => crlf++l)++(headEnd++rest)))).map (·+l.length) :=
          find_skip hl.2 _ _
    have hcons : y::(t++(ls.flatMap fun l => crlf++l)++(headEnd++rest)) =
        ((y::t) ++ ls.flatMap fun l => crlf++l)++(headEnd++rest) := by simp
    rw [hsplit,hskip,find_headEnd_line hy,hcons,hrest]
    simp [crlf]
    omega

lemma find_headEnd (r : Response) (rest : Bytes) : find headEnd (r.head++(headEnd++rest)) = some r.head.length := by
  have hlines : ∀ l ∈ r.fields.map Field.line, l ≠ [] ∧ 13 ∉ l := by
    intro l hl
    obtain ⟨f,hf,rfl⟩ := mem_map.mp hl
    obtain ⟨-,-,hname,hvalue⟩ := r.fields_plain f hf
    simp [Field.line,hname.1,hvalue.1]
  have hfind := find_headEnd_lines ⟨r.status_plain.1,r.status_plain.2.1⟩ hlines rest
  rwa [flatMap_map] at hfind

lemma length_bytes (r : Response) : r.bytes.length = r.head.length+4+r.body.length := by
  simp [Response.bytes,headEnd]
  omega

lemma find_headEnd_take (hx : r.head.length+4≤x) : find headEnd (r.bytes.take x) = some r.head.length := by
  obtain ⟨n,rfl⟩ := Nat.exists_eq_add_of_le hx
  have htake : r.bytes.take (r.head.length+4+n) = r.head++(headEnd ++ r.body.take n) := by
    have hcount : r.head.length+4+n = r.head.length+(headEnd.length+n) := by
      simp [headEnd,Nat.add_assoc]
    rw [hcount,Response.bytes,take_length_add_append,take_length_add_append]
  rw [htake]
  exact find_headEnd r _

lemma find_headEnd_take_of_lt (hx : x<r.head.length+4) : find headEnd (r.bytes.take x) = none := by
  cases hfind : find headEnd (r.bytes.take x) with
  | none => rfl
  | some i =>
    have hwhole := find_append hfind (r.bytes.drop x)
    rw [take_append_drop,Response.bytes,find_headEnd,Option.some.injEq] at hwhole
    have hle := add_length_le_of_find hfind
    rw [← hwhole,length_take] at hle
    simp only [headEnd,length_cons,length_nil] at hle
    omega

lemma take_head (hx : r.head.length+4≤x) : (r.bytes.take x).take r.head.length = r.head := by
  rw [take_take,min_eq_left (by omega),Response.bytes,take_left]

end Head

namespace Response

def seenLength (r : Response) : ℤ := parseContentLength r.head

def seenChunked (r : Response) : Bool := headerHas (toLower r.head) chunkedText

def seenStream (r : Response) : Bool := headerHas (toLower r.head) eventStreamText

def start (r : Response) : ℕ := r.head.length+4

def piece (r : Response) (x y : ℕ) : Bytes := (r.bytes.take y).drop x

/-- The loop after the first `x` bytes have been read and the first `k` of them have left the buffer. -/
def stateAt (r : Response) (x k : ℕ) : Relay :=
  if x<r.start then { buf := r.bytes.take x }
  else
    { buf := r.piece k x
      headersDone := true
      contentLength := r.seenLength
      chunked := r.seenChunked
      eventStream := r.seenStream
      bodyStart := if k = 0 then r.start else 0
      alreadySent := x-k
      written := r.bytes.take x }

/-- The tests by which the loop is left. -/
def ends (r : Response) (x k : ℕ) : Bool := (r.stateAt x k).lengthReached || (r.stateAt x k).lastChunkSeen

/-- What has left the buffer after a read behind the header block. -/
def dropped (r : Response) (x k : ℕ) : ℕ := if r.seenStream = true ∧ streamLimit<x-k then x-kept else k

section Turns
variable {r : Response} {x y k : ℕ}

lemma length_piece (hy : y≤r.bytes.length) : (r.piece x y).length = y-x := by
  rw [piece,length_drop,length_take,min_eq_left hy]

lemma take_append_piece (hxy : x≤y) : r.bytes.take x ++ r.piece x y = r.bytes.take y := by
  have htake : (r.bytes.take y).take x = r.bytes.take x := by
    rw [take_take,min_eq_left hxy]
  rw [piece,← htake,take_append_drop]

lemma piece_append_piece (hk : k≤x) (hxy : x≤y) (hy : y≤r.bytes.length) :
    r.piece k x ++ r.piece x y = r.piece k y := by
  have hlen : k≤(r.bytes.take x).length := by
    rw [length_take]
    omega
  unfold piece
  rw [← drop_append_of_le_length hlen]
  exact congrArg (List.drop k) (take_append_piece hxy)

lemma piece_ne_nil (hxy : x<y) (hy : y≤r.bytes.length) : r.piece x y ≠ [] := by
  apply ne_nil_of_length_pos
  rw [length_piece hy]
  omega

lemma stateAt_of_lt (hx : x<r.start) : r.stateAt x k = { buf := r.bytes.take x } := if_pos hx

lemma stateAt_of_le (hx : r.start≤x) : r.stateAt x k =
    { buf := r.piece k x
      headersDone := true
      contentLength := r.seenLength
      chunked := r.seenChunked
      eventStream := r.seenStream
      bodyStart := if k = 0 then r.start else 0
      alreadySent := x-k
      written := r.bytes.take x } := if_neg (Nat.not_lt.mpr hx)

lemma turn_of_lt (hxy : x<y) (hy : y<r.start) : (r.stateAt x k).turn { data := r.piece x y } =
    if headLimit<y then .inl (false,r.stateAt y 0) else .inr (r.stateAt y 0) := by
  have hN : y≤r.bytes.length := by
    have := length_bytes r
    simp only [start] at hy
    omega
  have hlen : (r.bytes.take y).length = y := by
    rw [length_take,min_eq_left hN]
  have hfind : find headEnd (r.bytes.take y) = none := find_headEnd_take_of_lt hy
  rw [stateAt_of_lt (hxy.trans hy),stateAt_of_lt hy]
  simp [turn,append,piece_ne_nil hxy hN,take_append_piece hxy.le,hfind,hlen]

lemma turn_of_lt_of_le (hx : x<r.start) (hy : r.start≤y) (hN : y≤r.bytes.length) :
    (r.stateAt x k).turn { data := r.piece x y } = if r.ends y 0 then .inl (true,r.stateAt y 0)
      else .inr (r.stateAt y 0) := by
  have hfind : find headEnd (r.bytes.take y) = some r.head.length := find_headEnd_take hy
  have hnew : 0<(r.bytes.take y).length := by
    rw [length_take]
    omega
  have hpass : (readHead { buf := r.bytes.take y } r.head.length).pass true = some (r.stateAt y 0) := by
    rw [pass_of_lt hnew,stateAt_of_le hy]
    simp [readHead,take_head hy,seenLength,seenChunked,seenStream,start,piece,hN]
  rw [stateAt_of_lt hx]
  simp [turn,append,piece_ne_nil (hx.trans_le hy) hN,take_append_piece (hx.trans_le hy).le,hfind,hpass,ends]

lemma trim_stateAt (hx : r.start≤x) (hk : k≤x) (hN : x≤r.bytes.length) :
    (r.stateAt x k).trim = r.stateAt x (r.dropped x k) := by
  unfold trim dropped
  by_cases hfull : r.seenStream = true ∧ streamLimit<x-k
  · have hbuf : (r.piece k x).drop (x-k-kept) = r.piece (x-kept) x := by
      have hcount : k+(x-k-kept) = x-kept := by
        simp only [streamLimit,kept] at hfull ⊢
        omega
      rw [piece,drop_drop,hcount,piece]
    have hleft : x-kept ≠ 0 := by
      simp only [streamLimit,kept] at hfull ⊢
      omega
    have hsent : x-(x-kept) = kept := by
      omega
    rw [if_pos hfull,stateAt_of_le hx,stateAt_of_le hx]
    simp [length_piece hN,hfull,hbuf,hleft,hsent]
  · rw [if_neg hfull,stateAt_of_le hx]
    simp [length_piece hN,hfull]

lemma turn_of_le (hx : r.start≤x) (hk : k≤x) (hxy : x<y) (hN : y≤r.bytes.length) :
    (r.stateAt x k).turn { data := r.piece x y } = if r.ends y k then .inl (true,r.stateAt y k)
      else .inr (r.stateAt y (r.dropped y k)) := by
  have hpass : ((r.stateAt x k).append (r.piece x y)).pass true = some (r.stateAt y k) := by
    have hnew : (r.piece k y).drop (x-k) = r.piece x y := by
      rw [piece,drop_drop,Nat.add_sub_cancel' hk,piece]
    rw [stateAt_of_le hx,append,piece_append_piece hk hxy.le hN,pass_of_lt (by simp [length_piece hN]; omega),
      stateAt_of_le (hx.trans hxy.le)]
    simp [length_piece hN,hnew,take_append_piece hxy.le]
  have hdone : ((r.stateAt x k).append (r.piece x y)).headersDone = true := by
    rw [stateAt_of_le hx]
    rfl
  simp [turn,piece_ne_nil hxy hN,hdone,hpass,trim_stateAt (hx.trans hxy.le) (hk.trans hxy.le) hN,ends]

end Turns

/-- Whether the loop is left after a read up to `y`: for a header block beyond its limit, or for an end that is
seen. -/
def stops (r : Response) (y k : ℕ) : Bool := if y<r.start then headLimit<y else r.ends y k

def next (r : Response) (x y k : ℕ) : ℕ := if x<r.start then k else r.dropped y k

/-- Bytes leave the buffer behind the header block of an event stream only, and never the last ones. -/
structure Tracked (r : Response) (x k : ℕ) : Prop where
  within : x<r.start → k = 0
  behind : k ≠ 0 → r.seenStream = true ∧ streamLimit<k+kept ∧ k+kept≤x

section Steps
variable {r : Response} {x y k : ℕ}

lemma Tracked.zero (r : Response) (x : ℕ) : r.Tracked x 0 := ⟨fun _ => rfl,fun h => absurd rfl h⟩

lemma Tracked.le (h : r.Tracked x k) : k≤x := by
  by_cases hk : k = 0
  · omega
  · have := (h.behind hk).2.2
    omega

/-- A turn reads on, to the end of what it has got. -/
theorem turn_stateAt (h : r.Tracked x k) (hxy : x<y) (hN : y≤r.bytes.length) :
    (r.stateAt x k).turn { data := r.piece x y } =
      if r.stops y k then .inl (decide (r.start≤y),r.stateAt y k) else .inr (r.stateAt y (r.next x y k)) := by
  unfold stops next
  by_cases hy : y<r.start
  · obtain rfl : k = 0 := h.within (hxy.trans hy)
    simp [turn_of_lt hxy hy,hy,hxy.trans hy,Nat.not_le.mpr hy]
  · have hle : r.start≤y := Nat.le_of_not_lt hy
    by_cases hx : x<r.start
    · obtain rfl : k = 0 := h.within hx
      simp [turn_of_lt_of_le hx hle hN,hy,hx,hle]
    · simp [turn_of_le (Nat.le_of_not_lt hx) h.le hxy hN,hy,hx,hle]

lemma relayResponse_cons (h : r.Tracked x k) (hxy : x<y) (hN : y≤r.bytes.length) (ts : List Turn) :
    (r.stateAt x k).relayResponse ({ data := r.piece x y }::ts) =
      if r.stops y k then (some (decide (r.start≤y)),r.stateAt y k)
        else (r.stateAt y (r.next x y k)).relayResponse ts := by
  rw [relayResponse,turn_stateAt h hxy hN]
  cases r.stops y k <;> rfl

lemma Tracked.next (h : r.Tracked x k) (hxy : x<y) : r.Tracked y (r.next x y k) := by
  have hsame : r.Tracked y k := ⟨fun hy => h.within (hxy.trans hy),fun hk => by
    obtain ⟨hstream,hlimit,hle⟩ := h.behind hk
    exact ⟨hstream,hlimit,by omega⟩⟩
  unfold Response.next dropped
  split_ifs with hx hfull
  · exact hsame
  · refine ⟨fun hy => absurd (hxy.trans hy) hx,fun _ => ⟨hfull.1,?_,?_⟩⟩
    · have := hfull.2
      omega
    · have := hfull.2
      omega
  · exact hsame

lemma next_of_le (h : r.seenStream = true → y-k ≤ streamLimit) : r.next x y k = k := by
  unfold next dropped
  split_ifs with hx hfull
  · rfl
  · exact absurd (h hfull.1) (Nat.not_le.mpr hfull.2)
  · rfl

lemma length_written_stateAt_le (r : Response) (x k : ℕ) : (r.stateAt x k).written.length≤x := by
  unfold stateAt
  split <;> simp

lemma written_stateAt (h : r.bytes.length≤x) : (r.stateAt x k).written = r.bytes := by
  have hx : r.start≤x := by
    have := length_bytes r
    simp only [start]
    omega
  rw [stateAt_of_le hx,take_of_length_le h]

end Steps

def reads (pieces : List Bytes) : List Turn := pieces.map fun d => { data := d }

lemma reads_cons_append (d : Bytes) (pieces : List Bytes) (ts : List Turn) :
    reads (d::pieces) ++ ts = { data := d }::(reads pieces ++ ts) := rfl

section Runs
variable {r : Response} {x y z k : ℕ} {d rest : Bytes} {pieces : List Bytes} {ts : List Turn}

lemma piece_of_append (h : d++rest = r.piece x z) (hxz : x≤z) (hz : z≤r.bytes.length) :
    x+d.length≤z ∧ r.piece x (x+d.length) = d ∧ r.piece (x+d.length) z = rest := by
  have hlen := congrArg length h
  rw [length_append,length_piece hz] at hlen
  have hle : x+d.length≤z := by omega
  have hsplit := piece_append_piece (Nat.le_add_right x d.length) hle hz
  have hsame : (r.piece x (x+d.length)).length = d.length := by
    rw [length_piece (hle.trans hz)]
    omega
  exact ⟨hle,append_inj (hsplit.trans h.symm) hsame⟩

/-- Over some reads the loop is left with no more written than was read, or it goes on with what they hold. -/
theorem relayResponse_reads (h : r.Tracked x k) (hwhole : pieces.flatten = r.piece x z) (hne : ∀ d ∈ pieces, d ≠ [])
    (hxz : x≤z) (hz : z≤r.bytes.length) (ts : List Turn) :
    ((r.stateAt x k).relayResponse (reads pieces ++ ts)).2.written.length≤z ∨
      ∃ k', (r.stateAt x k).relayResponse (reads pieces ++ ts) = (r.stateAt z k').relayResponse ts ∧ r.Tracked z k' ∧
        ((r.seenStream = true → z-k ≤ streamLimit) → k' = k) := by
  induction pieces generalizing x k with
  | nil =>
    have hlen := length_piece (r := r) (x := x) hz
    rw [← hwhole] at hlen
    obtain rfl : x = z := by
      simp at hlen
      omega
    exact .inr ⟨k,rfl,h,fun _ => rfl⟩
  | cons d pieces ih =>
    obtain ⟨hle,hd,hrest⟩ := piece_of_append hwhole hxz hz
    have hpos : x<x+d.length := by
      have := length_pos_iff.mpr (hne d mem_cons_self)
      omega
    have hcons := relayResponse_cons h hpos (hle.trans hz) (reads pieces ++ ts)
    rw [hd] at hcons
    rw [reads_cons_append,hcons]
    split_ifs
    · exact .inl ((length_written_stateAt_le r _ k).trans hle)
    · obtain hshort | ⟨k',hrun,htracked,hsame⟩ :=
        ih (h.next hpos) hrest.symm (fun d hd => hne d (mem_cons_of_mem _ hd)) hle
      · exact .inl hshort
      · refine .inr ⟨k',hrun,htracked,fun hquiet => ?_⟩
        have hnext : r.next x (x+d.length) k = k := next_of_le fun hstream => by
          have := hquiet hstream
          omega
        rw [hnext] at hsame
        exact hsame hquiet

end Runs

/-- The least number of bytes with which the length that is seen counts as reached, for some way to read them. An
event stream beyond its limit is measured from where its buffer then begins, and a length beyond the limit is never
reached. -/
def lengthEnd (r : Response) : Option ℕ :=
  if r.seenLength<0 then none
  else if r.seenStream = false ∨ r.start+r.seenLength.toNat ≤ streamLimit+tmpSize then
    some (r.start+r.seenLength.toNat)
  else if r.seenLength.toNat ≤ streamLimit+tmpSize then some (streamLimit+1-kept+r.seenLength.toNat)
  else none

/-- The header block is within its limit, and neither the length nor the last chunk is seen before all has been
read. -/
structure Recognised (r : Response) : Prop where
  block : r.start≤headLimit+1
  length : ∀ n ∈ r.lengthEnd, r.bytes.length≤n
  chunks : r.seenChunked = true → ¬lastChunk <:+: r.bytes.dropLast

section Recognition
variable {r : Response} {x y z k : ℕ} {pieces : List Bytes}

lemma ends_iff (hy : r.start≤y) (hN : y≤r.bytes.length) : r.ends y k = true ↔
    (0≤r.seenLength ∧ (if k = 0 then r.start else 0)+r.seenLength.toNat ≤ y-k) ∨ r.seenChunked = true ∧
      lastChunk <:+: r.piece k y := by
  have hfind : (find lastChunk (r.piece k y)).isSome = true ↔ lastChunk <:+: r.piece k y := by
    rw [Option.isSome_iff_ne_none,Ne,find_eq_none_iff,not_not]
  rw [ends,stateAt_of_le hy]
  simp [lengthReached,lastChunkSeen,hfind,length_piece hN]

/-- A length that counts as reached is the one of the whole response. -/
lemma Recognised.le_of_length (h : r.Recognised) (htracked : r.Tracked x k)
    (hbuffered : r.seenStream = true → x-k ≤ streamLimit) (hxy : x≤y) (hy : y≤x+tmpSize) (hknown : 0≤r.seenLength)
    (hreached : (if k = 0 then r.start else 0)+r.seenLength.toNat ≤ y-k) :
    r.bytes.length≤y := by
  have hend := h.length
  have hblock := h.block
  unfold lengthEnd at hend
  rw [if_neg (Int.not_lt.mpr hknown)] at hend
  by_cases hk : k = 0
  · rw [if_pos hk] at hreached
    by_cases hfirst : r.seenStream = false ∨ r.start+r.seenLength.toNat ≤ streamLimit+tmpSize
    · rw [if_pos hfirst] at hend
      have := hend _ rfl
      omega
    · simp only [not_or,Bool.not_eq_false] at hfirst
      have := hbuffered hfirst.1
      omega
  · obtain ⟨hstream,hlimit,hle⟩ := htracked.behind hk
    have hbuf := hbuffered hstream
    simp only [streamLimit,kept,headLimit] at hlimit hblock
    split_ifs at hend with hfirst hsecond
    · have := hend _ rfl
      omega
    · have := hend _ rfl
      simp only [streamLimit,kept] at this
      omega
    · omega

lemma Recognised.le_of_ends (h : r.Recognised) (htracked : r.Tracked x k)
    (hbuffered : r.seenStream = true → x-k ≤ streamLimit) (hxy : x≤y) (hy : y≤x+tmpSize) (hstart : r.start≤y)
    (hN : y≤r.bytes.length) (hends : r.ends y k = true) : r.bytes.length≤y := by
  obtain ⟨hknown,hreached⟩ | ⟨hchunked,hseen⟩ := (ends_iff hstart hN).mp hends
  · exact h.le_of_length htracked hbuffered hxy hy hknown hreached
  · by_contra hlt
    have htake : r.bytes.take y <+: r.bytes.dropLast := by
      rw [dropLast_eq_take]
      exact take_prefix_take_left (by omega)
    have hpiece : r.piece k y <:+: r.bytes.take y := (drop_suffix _ _).isInfix
    exact h.chunks hchunked (hseen.trans (hpiece.trans htake.isInfix))

lemma buffered_next (hblock : r.start≤headLimit+1) (hy : y≤x+tmpSize) (hstream : r.seenStream = true) :
    y-r.next x y k ≤ streamLimit := by
  unfold next dropped
  split_ifs with hx hfull
  · simp only [headLimit,tmpSize,streamLimit] at hblock hy ⊢
    omega
  · simp only [kept,streamLimit]
    omega
  · simp only [hstream,true_and,Nat.not_lt] at hfull
    exact hfull

lemma relayResponse_of_recognised (h : r.Recognised) (htracked : r.Tracked x k)
    (hbuffered : r.seenStream = true → x-k ≤ streamLimit) (hwhole : pieces.flatten = r.piece x r.bytes.length)
    (hsized : ∀ d ∈ pieces, d ≠ [] ∧ d.length≤tmpSize) (hx : x≤r.bytes.length) :
    ((r.stateAt x k).relayResponse (reads pieces ++ [{ data := [] }])).1.isSome = true ∧
      ((r.stateAt x k).relayResponse (reads pieces ++ [{ data := [] }])).2.written = r.bytes := by
  induction pieces generalizing x k with
  | nil =>
    have hlen := length_piece (r := r) (x := x) le_rfl
    rw [← hwhole] at hlen
    have hall : r.bytes.length≤x := by
      simp at hlen
      omega
    simp [reads,relayResponse,turn,written_stateAt hall]
  | cons d pieces ih =>
    obtain ⟨hle,hd,hrest⟩ := piece_of_append hwhole hx le_rfl
    obtain ⟨hne,hsize⟩ := hsized d mem_cons_self
    have hpos : x<x+d.length := by
      have := length_pos_iff.mpr hne
      omega
    have hcons := relayResponse_cons htracked hpos hle (reads pieces ++ [{ data := [] }])
    rw [hd] at hcons
    rw [reads_cons_append,hcons]
    split_ifs with hstop
    · have hall : r.bytes.length≤x+d.length := by
        unfold stops at hstop
        split_ifs at hstop with hshort
        · have := h.block
          simp at hstop
          omega
        · exact h.le_of_ends htracked hbuffered hpos.le (by omega) (Nat.le_of_not_lt hshort) hle hstop
      exact ⟨rfl,written_stateAt hall⟩
    · exact ih (htracked.next hpos) (buffered_next h.block (by omega)) hrest.symm
        (fun d hd => hsized d (mem_cons_of_mem _ hd)) hle

end Recognition

section Splits
variable {r : Response} {x y z k : ℕ} {pieces : List Bytes}

def singles (s : Bytes) : List Bytes := s.map fun b => [b]

lemma flatten_singles (s : Bytes) : (singles s).flatten = s := by
  simp [singles,← flatMap_def]

lemma sized_of_mem_singles {s d : Bytes} (h : d ∈ singles s) : d ≠ [] ∧ d.length≤tmpSize := by
  obtain ⟨b,-,rfl⟩ := mem_map.mp h
  simp [tmpSize]

/-- The bytes from `x` up to `y`, one by one up to `z` and the others at once. -/
def stretch (r : Response) (x z y : ℕ) : List Bytes := singles (r.piece x z) ++ [r.piece z y]

lemma flatten_stretch (hxz : x≤z) (hzy : z≤y) (hy : y≤r.bytes.length) : (r.stretch x z y).flatten = r.piece x y := by
  simp [stretch,flatten_singles,piece_append_piece hxz hzy hy]

lemma sized_of_mem_stretch {d : Bytes} (hzy : z<y) (hsize : y≤z+tmpSize) (hy : y≤r.bytes.length)
    (hd : d ∈ r.stretch x z y) :
    d ≠ [] ∧ d.length≤tmpSize := by
  obtain hd | hd := mem_append.mp hd
  · exact sized_of_mem_singles hd
  · rw [mem_singleton.mp hd,length_piece hy]
    exact ⟨piece_ne_nil hzy hy,by omega⟩

lemma reads_stretch_append (r : Response) (x z y : ℕ) (ts : List Turn) :
    reads (r.stretch x z y) ++ ts = reads (singles (r.piece x z)) ++ { data := r.piece z y }::ts := by
  simp [stretch,reads]

lemma stateAt_zero (r : Response) : r.stateAt 0 0 = {} := by
  have hpos : 0<r.start := Nat.succ_pos _
  rw [stateAt_of_lt hpos,take_zero]

lemma length_written_le (h : r.Tracked x k) (hxz : x≤z) (hzy : z<y) (hy : y≤r.bytes.length)
    (hstop : ∀ k', r.Tracked z k' → ((r.seenStream = true → z-k ≤ streamLimit) → k' = k) → r.stops y k' = true)
    (ts : List Turn) :
    ((r.stateAt x k).relayResponse (reads (r.stretch x z y) ++ ts)).2.written.length≤y := by
  rw [reads_stretch_append]
  obtain hshort | ⟨k',hrun,htracked,hsame⟩ :=
    relayResponse_reads h (flatten_singles _) (fun d hd => (sized_of_mem_singles hd).1) hxz
    (hzy.le.trans hy) ({ data := r.piece z y }::ts)
  · exact hshort.trans hzy.le
  · rw [hrun,relayResponse_cons htracked hzy hy,if_pos (hstop k' htracked hsame)]
    exact length_written_stateAt_le r y k'

/-- Some reads after which less has been written than there is. -/
lemma not_relayed (hy : y<r.bytes.length) (hwhole : pieces.flatten = r.bytes.take y)
    (hsized : ∀ d ∈ pieces, d ≠ [] ∧ d.length≤tmpSize)
    (hshort : ∀ ts, (relayResponse {} (reads pieces ++ ts)).2.written.length≤y) : ¬r.Relayed := by
  intro hrelayed
  let all : r.Reads :=
    { pieces := pieces ++ singles (r.bytes.drop y)
      whole := by rw [flatten_append,flatten_singles,hwhole,take_append_drop]
      sized := fun d hd => (mem_append.mp hd).elim (hsized d) sized_of_mem_singles }
  have hturns : all.turns = reads pieces ++ (reads (singles (r.bytes.drop y)) ++ [{ data := [] }]) := by
    simp [all,Reads.turns,reads]
  have hlen := hshort (reads (singles (r.bytes.drop y)) ++ [{ data := [] }])
  rw [← hturns,(hrelayed all).2] at hlen
  omega

lemma not_relayed_of_stops (hzy : z<y) (hsize : y≤z+tmpSize) (hy : y<r.bytes.length)
    (hstop : ∀ k, r.Tracked z k → ((r.seenStream = true → z ≤ streamLimit) → k = 0) → r.stops y k = true) :
    ¬r.Relayed := by
  have hwhole : (r.stretch 0 z y).flatten = r.bytes.take y := flatten_stretch (Nat.zero_le z) hzy.le hy.le
  refine not_relayed hy hwhole (fun d hd => sized_of_mem_stretch hzy hsize hy.le hd) fun ts => ?_
  exact length_written_le (Tracked.zero r 0) (Nat.zero_le z) hzy hy.le (by simpa using hstop) ts

lemma block_of_relayed (h : r.Relayed) : r.start≤headLimit+1 := by
  by_contra hlong
  have hstart : r.start≤r.bytes.length := by
    rw [length_bytes,start]
    omega
  have hstop : ∀ k, r.stops (headLimit+1) k = true := by
    intro k
    simp [stops,Nat.not_le.mp hlong]
  exact not_relayed_of_stops (Nat.lt_succ_self headLimit) (by simp [tmpSize]) (by omega) (fun k _ _ => hstop k) h

/-- The text of a last chunk stays in the buffer until it is complete. -/
lemma chunks_of_relayed (h : r.Relayed) (hchunked : r.seenChunked = true) : ¬lastChunk <:+: r.bytes.dropLast := by
  intro hseen
  obtain ⟨i,hfind⟩ : ∃ i, find lastChunk r.bytes.dropLast = some i :=
    Option.ne_none_iff_exists'.mp fun hnone => find_eq_none_iff.mp hnone hseen
  have hle : i+7≤r.bytes.length-1 := by
    have := add_length_le_of_find hfind
    rwa [length_dropLast] at this
  have hy : i+7<r.bytes.length := by omega
  have htake : r.bytes.take (i+7) = r.bytes.take i ++ lastChunk := by
    have hwhole : find lastChunk r.bytes = some i := by
      have hmore := find_append hfind (r.bytes.drop (r.bytes.length-1))
      rwa [dropLast_eq_take,take_append_drop] at hmore
    exact take_of_find hwhole
  have hstart : r.start ≤ i+7 := by
    by_contra hlt
    have hnone := find_headEnd_take_of_lt (r := r) (Nat.not_le.mp hlt)
    refine find_eq_none_iff.mp hnone ?_
    rw [htake]
    exact (show headEnd <:+: lastChunk by decide).trans (suffix_append _ _).isInfix
  refine not_relayed_of_stops (Nat.lt_succ_self (i+6)) (by simp [tmpSize]) hy (fun k htracked _ => ?_) h
  have hk : k≤(r.bytes.take i).length := by
    rw [length_take]
    by_cases hk : k = 0
    · omega
    · have := (htracked.behind hk).2.2
      simp only [kept] at this
      omega
  have hpiece : lastChunk <:+: r.piece k (i+7) := by
    rw [piece,htake,drop_append_of_le_length hk]
    exact (suffix_append _ _).isInfix
  rw [stops,if_neg (Nat.not_lt.mpr hstart)]
  exact (ends_iff hstart hy.le).mpr (.inr ⟨hchunked,hpiece⟩)

lemma not_relayed_of_length (hknown : 0≤r.seenLength)
    (hfirst : r.seenStream = false ∨ r.start+r.seenLength.toNat ≤ streamLimit+tmpSize)
    (hy : r.start+r.seenLength.toNat<r.bytes.length) : ¬r.Relayed := by
  have hpos : 0<r.start := Nat.succ_pos _
  have hstop : r.stops (r.start+r.seenLength.toNat) 0 = true := by
    rw [stops,if_neg (by omega)]
    exact (ends_iff (by omega) hy.le).mpr (.inl ⟨hknown,by simp⟩)
  by_cases hstream : r.seenStream = true
  · have hlimit : r.start+r.seenLength.toNat ≤ streamLimit+tmpSize := by simpa [hstream] using hfirst
    have hcut : min (r.start+r.seenLength.toNat-1) streamLimit < r.start+r.seenLength.toNat := by omega
    have hsize : r.start+r.seenLength.toNat ≤ min (r.start+r.seenLength.toNat-1) streamLimit+tmpSize := by
      simp only [tmpSize] at hlimit ⊢
      omega
    refine not_relayed_of_stops hcut hsize hy fun k _ hsame => ?_
    rw [hsame fun _ => min_le_right _ _]
    exact hstop
  · have hcut : r.start+r.seenLength.toNat-1<r.start+r.seenLength.toNat := by omega
    refine not_relayed_of_stops hcut (by simp only [tmpSize]; omega) hy fun k htracked _ => ?_
    obtain rfl : k = 0 := by
      by_contra hk
      exact hstream (htracked.behind hk).1
    exact hstop

/-- A stretch that makes an event stream drop the beginning, and one up to a place where the loop stops. -/
lemma length_written_le_of_dropped (hstream : r.seenStream = true) (hstart : r.start ≤ streamLimit)
    (hxz : streamLimit+1≤z) (hzy : z<y) (hy : y≤r.bytes.length) (hlimit : z-(streamLimit+1-kept) ≤ streamLimit)
    (hstop : r.stops y (streamLimit+1-kept) = true) (ts : List Turn) :
    (relayResponse {} (reads (r.stretch 0 streamLimit (streamLimit+1)) ++
      (reads (r.stretch (streamLimit+1) z y) ++ ts))).2.written.length≤y := by
  let behind := reads (r.stretch (streamLimit+1) z y) ++ ts
  change (relayResponse {} (reads (r.stretch 0 streamLimit (streamLimit+1)) ++ behind)).2.written.length ≤ y
  rw [reads_stretch_append,← stateAt_zero r]
  obtain hshort | ⟨k,hrun,htracked,hsame⟩ :=
    relayResponse_reads (Tracked.zero r 0) (flatten_singles (r.piece 0 streamLimit))
    (fun d hd => (sized_of_mem_singles hd).1) (Nat.zero_le _) (by omega)
      ({ data := r.piece streamLimit (streamLimit+1) }::behind)
  · omega
  · obtain rfl : k = 0 := hsame fun _ => le_rfl
    have hnext : r.next streamLimit (streamLimit+1) 0 = streamLimit+1-kept := by
      simp [next,dropped,Nat.not_lt.mpr hstart,hstream]
    rw [hrun,relayResponse_cons htracked (Nat.lt_succ_self streamLimit) (by omega),hnext]
    split_ifs
    · exact (length_written_stateAt_le r _ 0).trans (by omega)
    · have hbehind : r.Tracked (streamLimit+1) (streamLimit+1-kept) :=
        hnext ▸ htracked.next (Nat.lt_succ_self streamLimit)
      refine length_written_le hbehind hxz hzy hy (fun k' _ hsame => ?_) ts
      rw [hsame fun _ => hlimit]
      exact hstop

/-- A length that is measured from where the buffer of an event stream begins. -/
lemma not_relayed_of_dropped (hknown : 0≤r.seenLength) (hstream : r.seenStream = true) (hblock : r.start≤headLimit+1)
    (hlong : streamLimit+tmpSize<r.start+r.seenLength.toNat) (hlimit : r.seenLength.toNat ≤ streamLimit+tmpSize)
    (hy : streamLimit+1-kept+r.seenLength.toNat<r.bytes.length) : ¬r.Relayed := by
  obtain ⟨y,hyeq⟩ : ∃ y, y = streamLimit+1-kept+r.seenLength.toNat := ⟨_,rfl⟩
  obtain ⟨z,hzeq⟩ : ∃ z, z = min (y-1) (streamLimit+1-kept+streamLimit) := ⟨_,rfl⟩
  rw [← hyeq] at hy
  have hstart : r.start ≤ streamLimit := by
    simp only [headLimit,streamLimit] at hblock ⊢
    omega
  have hbounds : streamLimit+1≤z ∧ z<y ∧ y≤z+tmpSize ∧ z-(streamLimit+1-kept) ≤ streamLimit := by
    simp only [headLimit,streamLimit,tmpSize,kept] at hblock hlong hlimit hyeq hzeq ⊢
    omega
  obtain ⟨hxz,hzy,hsize,hbuffered⟩ := hbounds
  have hstop : r.stops y (streamLimit+1-kept) = true := by
    rw [stops,if_neg (by omega)]
    refine (ends_iff (by omega) hy.le).mpr (.inl ⟨hknown,?_⟩)
    rw [if_neg (by simp [streamLimit,kept])]
    omega
  have hfirst : (r.stretch 0 streamLimit (streamLimit+1)).flatten = r.piece 0 (streamLimit+1) :=
    flatten_stretch (Nat.zero_le _) (Nat.le_succ _) (by omega)
  have hsecond : (r.stretch (streamLimit+1) z y).flatten = r.piece (streamLimit+1) y :=
    flatten_stretch hxz hzy.le hy.le
  have hwhole : (r.stretch 0 streamLimit (streamLimit+1) ++ r.stretch (streamLimit+1) z y).flatten =
      r.bytes.take y := by
    rw [flatten_append,hfirst,hsecond]
    exact piece_append_piece (Nat.zero_le _) (hxz.trans hzy.le) hy.le
  refine not_relayed hy hwhole (fun d hd => ?_) fun ts => ?_
  · obtain hd | hd := mem_append.mp hd
    · exact sized_of_mem_stretch (Nat.lt_succ_self _) (by simp [tmpSize]) (by omega) hd
    · exact sized_of_mem_stretch hzy hsize hy.le hd
  · have hlen := length_written_le_of_dropped hstream hstart hxz hzy hy.le hbuffered hstop ts
    simpa [reads] using hlen

lemma length_of_relayed (h : r.Relayed) : ∀ n ∈ r.lengthEnd, r.bytes.length≤n := by
  intro n hn
  by_contra hlt
  have hlt : n<r.bytes.length := Nat.not_le.mp hlt
  unfold lengthEnd at hn
  split_ifs at hn with hknown hfirst hsecond
  · simp at hn
  · obtain rfl : r.start+r.seenLength.toNat = n := by simpa using hn
    exact not_relayed_of_length (Int.not_lt.mp hknown) hfirst hlt h
  · obtain rfl : streamLimit+1-kept+r.seenLength.toNat = n := by simpa using hn
    simp only [not_or,Bool.not_eq_false,Nat.not_le] at hfirst
    exact not_relayed_of_dropped (Int.not_lt.mp hknown) hfirst.1 (block_of_relayed h) hfirst.2 hsecond hlt h
  · simp at hn

end Splits

/-- The relay hands a complete response on whole, however it is read, exactly if it recognises the response. -/
theorem relayed_iff_recognised (r : Response) : r.Relayed ↔ r.Recognised := by
  constructor
  · intro h
    exact ⟨block_of_relayed h,length_of_relayed h,chunks_of_relayed h⟩
  · intro h given
    have hwhole : given.pieces.flatten = r.piece 0 r.bytes.length := by
      simp [given.whole,piece]
    have hrun := relayResponse_of_recognised h (Tracked.zero r 0) (fun _ => Nat.zero_le _) hwhole given.sized
      (Nat.zero_le _)
    rwa [stateAt_zero] at hrun

end Response

def okLine : Bytes := ascii ['H','T','T','P','/','1','.','1',' ','2','0','0',' ','O','K']

/-- `X-Content-Length: 0` before `Content-Length: 1`. -/
def otherLength : Response where
  statusLine := okLine
  fields :=
    [⟨ascii ['X','-','C','o','n','t','e','n','t','-','L','e','n','g','t','h'],ascii [' ','0']⟩,
      ⟨ascii ['C','o','n','t','e','n','t','-','L','e','n','g','t','h'],ascii [' ','1']⟩]
  body := ascii ['a']
  status_plain := by decide
  fields_plain := by decide
  framed := .inl (by decide)

/-- The body in a read of its own. -/
def otherLengthReads : otherLength.Reads where
  pieces := [otherLength.head++headEnd,ascii ['a']]
  whole := by decide
  sized := by decide

/-- One chunk, with the text of a last chunk for its data. -/
def nestedChunk : Response where
  statusLine := okLine
  fields := [⟨ascii ['T','r','a','n','s','f','e','r','-','E','n','c','o','d','i','n','g'],
    ascii [' ','c','h','u','n','k','e','d']⟩]
  body := ascii ['7'] ++ crlf++lastChunk++crlf ++ ascii ['0'] ++ crlf++crlf
  status_plain := by decide
  fields_plain := by decide
  framed := .inr
    ⟨by decide,by decide,[⟨ascii ['7'],[],lastChunk,by decide,by decide,by decide⟩],ascii ['0'],[],[],
    by simp [ascii],
    by simp [ascii],by decide,by simp,rfl⟩

/-- The end of the chunk and the last one in a read of their own. -/
def nestedChunkReads : nestedChunk.Reads where
  pieces := [nestedChunk.head++headEnd ++ ascii ['7'] ++ crlf++lastChunk,lastChunk]
  whole := by decide
  sized := by decide

/-- The client of the first one gets no body, the client of the second one not the end of its chunk. -/
theorem relayResponse_truncates :
    (relayResponse {} otherLengthReads.turns).1 = some true ∧
      (relayResponse {} otherLengthReads.turns).2.written ++ ascii ['a'] = otherLength.bytes ∧
      (relayResponse {} nestedChunkReads.turns).1 = some true ∧
      (relayResponse {} nestedChunkReads.turns).2.written++lastChunk = nestedChunk.bytes := by
  decide +kernel

end TitanKV.Skynet
