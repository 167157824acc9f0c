import TitanKV.Library.Directory
import TitanKV.Library.Incremental
import TitanKV.Library.Searching
import TitanKV.Minikv.Paths

/-! The parser for HTTP requests. Its buffer holds what was fed and not yet taken; each call of `feed` takes the
lines that are complete and then, if a length was announced, the body. What the standard library throws leaves the
loop as a result. -/
namespace TitanKV.Skynet
open Minikv Searching Incremental List

def toLower (s : Bytes) : Bytes := s.map fun c => if 65≤c ∧ c≤90 then c+32 else c

structure Headers where
  all : List (Bytes × Bytes) := []
  lowerMap : Directory Bytes Bytes := []
  deriving DecidableEq,Repr

namespace Headers

def add (h : Headers) (name value : Bytes) : Headers :=
  { all := h.all++[(name,value)], lowerMap := h.lowerMap.set (toLower name) value }

end Headers

structure HttpRequest where
  method : Bytes := []
  path : Bytes := []
  query : Bytes := []
  version : Bytes := []
  headers : Headers := {}
  body : Bytes := []
  deriving DecidableEq,Repr

inductive ParseResult
  | kOk
  | kNeedMoreData
  | kError
  deriving DecidableEq,Repr

inductive StdException
  | outOfRange
  | invalidArgument
  deriving DecidableEq,Repr

inductive State
  | kMethod
  | kPath
  | kVersion
  | kHeaderName
  | kHeaderValue
  | kBody
  | kDone
  deriving DecidableEq,Repr

def crlf : Bytes := [13,10]

def isSpace (b : UInt8) : Bool := b = 32 ∨ (9≤b ∧ b≤13)

def isDigit (b : UInt8) : Bool := 48≤b ∧ b≤57

def numeral (ds : Bytes) : ℕ := ds.foldl (fun n d => n*10+(d.toNat-48)) 0

/-- The number at the front of a text, with its sign: blanks may come first and anything may follow. -/
def number (s : Bytes) : Option (Bool × ℕ) :=
  let t := s.dropWhile isSpace
  let unsigned := if t.head? = some 45 ∨ t.head? = some 43 then t.tail else t
  let digits := unsigned.takeWhile isDigit
  if digits = [] then none else some (t.head? = some 45,numeral digits)

/-- `std::stoul`, where a negative number wraps around. -/
def stoul (s : Bytes) : Except StdException ℕ :=
  match number s with
  | none => .error .invalidArgument
  | some (negative,n) => if 2^64≤n then .error .outOfRange else .ok (if negative then (2^64-n)%2^64 else n)

structure ParserState where
  state : State := .kMethod
  req : HttpRequest := {}
  contentLength : ℕ := 0
  chunked : Bool := false
  currentHeaderName : Bytes := []
  deriving DecidableEq,Repr

structure HttpParser extends ParserState where
  buffer : Bytes := []
  deriving DecidableEq,Repr

/-- A position of `npos` plus one is the start of the line. -/
def HttpRequest.setLine (req : HttpRequest) (line : Bytes) : HttpRequest :=
  let sp1 := find [32] line
  let start := sp1.elim 0 (·+1)
  let sp2 := findFrom [32] line start
  let fullPath := sp2.elim (line.drop start) fun j => (line.drop start).take (j-start)
  let qPos := find [63] fullPath
  { req with
    method := sp1.elim line line.take
    version := line.drop (sp2.elim 0 (·+1))
    path := qPos.elim fullPath fullPath.take
    query := qPos.elim req.query fun q => fullPath.drop (q+1) }

def contentLengthName : Bytes := ascii ['C','o','n','t','e','n','t','-','L','e','n','g','t','h']

/-- The result with which `feed` is left. -/
abbrev Left := Except StdException ParseResult × ParserState

namespace ParserState

/-- The name of the length is compared as it is. -/
def addHeader (p : ParserState) (name value : Bytes) : Left ⊕ ParserState :=
  let p' := { p with req := { p.req with headers := p.req.headers.add name value } }
  if name = contentLengthName then
    match stoul value with
    | .error e => .inl (.error e,p')
    | .ok n => .inr { p' with contentLength := n }
  else .inr p'

/-- One line of the loop. The value starts two bytes behind the colon, which may be out of range. -/
def onLine (p : ParserState) (line : Bytes) : Left ⊕ ParserState :=
  match p.state with
  | .kMethod => .inr { p with req := p.req.setLine line, state := .kHeaderName }
  | .kHeaderName =>
    if line = [] then
      if 0<p.contentLength ∨ p.chunked = true then .inr { p with state := .kBody }
        else .inl (.ok .kOk,{ p with state := .kDone })
    else
      match find [58] line with
      | none => .inl (.ok .kError,p)
      | some colon =>
        if line.length<colon+2 then .inl (.error .outOfRange,p)
          else p.addHeader (line.take colon) (line.drop (colon+2))
  | _ => .inr p

def withBody (p : ParserState) (body : Bytes) : ParserState :=
  { p with req := { p.req with body := body }, state := .kDone }

end ParserState

def feedLoop (buffer : Bytes) : ℕ → ParserState → ℕ → Except StdException ParseResult × HttpParser
  | 0,p,pos => (.ok .kNeedMoreData,⟨p,buffer.drop pos⟩)
  | fuel+1,p,pos =>
    if pos<buffer.length then
      if p.state = .kBody then
        if p.contentLength≤buffer.length-pos then
          (.ok .kOk,⟨p.withBody ((buffer.drop pos).take p.contentLength),buffer⟩)
        else (.ok .kNeedMoreData,⟨p,buffer.drop pos⟩)
      else
        match findFrom crlf buffer pos with
        | none => (.ok .kNeedMoreData,⟨p,buffer.drop pos⟩)
        | some lineEnd =>
          match p.onLine ((buffer.drop pos).take (lineEnd-pos)) with
          | .inl left => (left.1,⟨left.2,buffer⟩)
          | .inr p => feedLoop buffer fuel p (lineEnd+2)
    else (.ok (if p.state = .kDone then .kOk else .kNeedMoreData),⟨p,buffer.drop pos⟩)

namespace HttpParser

def new : HttpParser := {}

def feed (p : HttpParser) (data : Bytes) : Except StdException ParseResult × HttpParser :=
  feedLoop (p.buffer++data) ((p.buffer++data).length+1) p.toParserState 0

/-- Chunks are fed until the parser wants no more. -/
def feedUntil (p : HttpParser) : List Bytes → Except StdException ParseResult × HttpRequest
  | [] => (.ok .kNeedMoreData,p.req)
  | c::cs =>
    match (p.feed c).1 with
    | .ok .kNeedMoreData => (p.feed c).2.feedUntil cs
    | r => (r,(p.feed c).2.req)

end HttpParser

/-- The parser as a machine on what is left of the buffer. -/
def machine : Machine ParserState Left UInt8 := fun p b =>
  if b = [] then none
  else if p.state = .kBody then
    if p.contentLength≤b.length then some (.inl (.ok .kOk,p.withBody (b.take p.contentLength))) else none
  else
    (find crlf b).map fun i => (p.onLine (b.take i)).map id fun p => (p,b.drop (i+2))

section Machine
variable {p p' : ParserState} {b rest : Bytes} {left : Left} {i : ℕ}

lemma machine_nil : machine p [] = none := by simp [machine]

lemma ne_nil_of_find (h : find crlf b = some i) : b ≠ [] := by
  rintro rfl
  simp [find,crlf] at h

lemma machine_of_line (hstate : p.state ≠ .kBody) (h : find crlf b = some i) :
    machine p b = some ((p.onLine (b.take i)).map id fun p => (p,b.drop (i+2))) := by
  simp [machine,ne_nil_of_find h,hstate,h]

lemma machine_of_no_line (hstate : p.state ≠ .kBody) (h : find crlf b = none) : machine p b = none := by
  simp [machine,hstate,h]

lemma machine_of_body (hstate : p.state = .kBody) (hne : b ≠ []) :
    machine p b = if p.contentLength≤b.length then some (.inl (.ok .kOk,p.withBody (b.take p.contentLength)))
      else none := by
  simp [machine,hne,hstate]

lemma machine_cases {o : Left ⊕ ParserState × Bytes} (h : machine p b = some o) :
    (p.state = .kBody ∧ b ≠ [] ∧ p.contentLength≤b.length ∧
      o = .inl (.ok .kOk,p.withBody (b.take p.contentLength))) ∨
      p.state ≠ .kBody ∧ ∃ i, find crlf b = some i ∧ i+2≤b.length ∧ o = (p.onLine (b.take i)).map id fun p =>
        (p,b.drop (i+2)) := by
  by_cases hstate : p.state = .kBody
  · by_cases hne : b = []
    · simp [hne,machine_nil] at h
    · rw [machine_of_body hstate hne] at h
      split_ifs at h with hle
      exact Or.inl ⟨hstate,hne,hle,(Option.some.inj h).symm⟩
  · cases hfind : find crlf b with
    | none => simp [machine_of_no_line hstate hfind] at h
    | some i =>
      rw [machine_of_line hstate hfind] at h
      exact Or.inr ⟨hstate,i,rfl,add_length_le_of_find hfind,(Option.some.inj h).symm⟩

lemma machine_next (h : machine p b = some (.inr (p',rest))) :
    ∃ i, i+2≤b.length ∧ p.onLine (b.take i) = .inr p' ∧ rest = b.drop (i+2) := by
  obtain ⟨-,-,-,ho⟩ | ⟨-,i,-,hle,ho⟩ := machine_cases h
  · cases ho
  · cases hline : p.onLine (b.take i) with
    | inl left => simp [hline] at ho
    | inr q =>
      simp only [hline,Sum.map_inr,Sum.inr.injEq,Prod.mk.injEq] at ho
      exact ⟨i,hle,by rw [hline,ho.1],ho.2⟩

lemma machine_consumes : Consumes machine := by
  intro p b p' rest h
  obtain ⟨i,hle,-,rfl⟩ := machine_next h
  rw [length_drop]
  omega

lemma machine_append {o : Left ⊕ ParserState × Bytes} (h : machine p b = some o) (t : Bytes) :
    machine p (b++t) = some (o.map id fun next => (next.1,next.2++t)) := by
  obtain ⟨hstate,hne,hle,rfl⟩ | ⟨hstate,i,hfind,hle,rfl⟩ := machine_cases h
  · rw [machine_of_body hstate (by simp [hne]),if_pos (by rw [length_append]; omega),take_append_of_le_length hle]
    rfl
  · rw [machine_of_line hstate (find_append hfind t),take_append_of_le_length (by omega),
      drop_append_of_le_length hle]
    cases p.onLine (b.take i) <;> rfl

lemma machine_stable : Stable machine where
  done _ _ _ h t := machine_append h t
  next _ _ _ _ h t := machine_append h t

lemma addHeader_left_or_kept (p : ParserState) (name value : Bytes) :
    (∃ e q, p.addHeader name value = .inl (.error e,q)) ∨ ∃ q, p.addHeader name value = .inr q ∧
      q.state = p.state := by
  unfold ParserState.addHeader
  split_ifs
  · cases stoul value with
    | error e => exact .inl ⟨e,_,rfl⟩
    | ok n => exact .inr ⟨_,rfl,rfl⟩
  · exact .inr ⟨_,rfl,rfl⟩

/-- The loop is not left with the wish for more, and no line that lets it go on leads to the end. -/
lemma onLine_cases (p : ParserState) (line : Bytes) :
    (∃ left, p.onLine line = .inl left ∧ left.1 ≠ .ok .kNeedMoreData) ∨
      ∃ q, p.onLine line = .inr q ∧ (p.state ≠ .kDone → q.state ≠ .kDone) := by
  unfold ParserState.onLine
  split
  · exact .inr ⟨_,rfl,by simp⟩
  · split_ifs
    · exact .inr ⟨_,rfl,by simp⟩
    · exact .inl ⟨_,rfl,by simp⟩
    · cases find [58] line with
      | none => exact .inl ⟨_,rfl,by simp⟩
      | some colon =>
        dsimp only
        split_ifs
        · exact .inl ⟨_,rfl,by simp⟩
        · obtain ⟨e,q,hadd⟩ | ⟨q,hadd,hstate⟩ := addHeader_left_or_kept p (line.take colon) (line.drop (colon+2))
          · exact .inl ⟨_,hadd,by simp⟩
          · exact .inr ⟨q,hadd,fun hp => hstate ▸ hp⟩
  · exact .inr ⟨p,rfl,id⟩

lemma ne_needMoreData_of_machine (h : machine p b = some (.inl left)) : left.1 ≠ .ok .kNeedMoreData := by
  obtain ⟨-,-,-,ho⟩ | ⟨-,i,-,-,ho⟩ := machine_cases h
  · cases ho
    simp
  · obtain ⟨left',hline,hne⟩ | ⟨q,hline,-⟩ := onLine_cases p (b.take i)
    · simp only [hline,Sum.map_inl,id_eq,Sum.inl.injEq] at ho
      exact ho ▸ hne
    · simp [hline] at ho

lemma state_of_machine (hp : p.state ≠ .kDone) (h : machine p b = some (.inr (p',rest))) : p'.state ≠ .kDone := by
  obtain ⟨i,-,hnext,-⟩ := machine_next h
  obtain ⟨left,hline,-⟩ | ⟨q,hline,hkeeps⟩ := onLine_cases p (b.take i)
  · simp [hline] at hnext
  · obtain rfl : q = p' := by simpa [hline] using hnext
    exact hkeeps hp

end Machine

/-- What `feed` gives back for an outcome of the machine on the whole buffer. -/
def report (buffer : Bytes) : Outcome ParserState Left UInt8 → Except StdException ParseResult × HttpParser
  | .done left => (left.1,⟨left.2,buffer⟩)
  | .waiting p rest => (.ok (if rest = [] ∧ p.state = .kDone then .kOk else .kNeedMoreData),⟨p,rest⟩)

/-- The result and the request of an outcome, for which the buffer does not matter. -/
def ending (o : Outcome ParserState Left UInt8) : Except StdException ParseResult × HttpRequest :=
  ((report [] o).1,(report [] o).2.req)

lemma ending_eq (buffer : Bytes) (o : Outcome ParserState Left UInt8) :
    ((report buffer o).1,(report buffer o).2.req) = ending o := by
  cases o <;> rfl

section Feed
variable {p : ParserState} {buffer : Bytes}

lemma feedLoop_eq {fuel pos : ℕ} (hfuel : buffer.length-pos<fuel) :
    feedLoop buffer fuel p pos = report buffer (drive machine fuel p (buffer.drop pos)) := by
  induction fuel generalizing p pos with
  | zero => omega
  | succ fuel ih =>
    unfold feedLoop drive
    by_cases hpos : pos<buffer.length
    · have hne : buffer.drop pos ≠ [] := by simpa using hpos
      rw [if_pos hpos]
      by_cases hstate : p.state = .kBody
      · rw [if_pos hstate,machine_of_body hstate hne,length_drop]
        split_ifs with hle
        · rfl
        · simp [report,hne]
      · rw [if_neg hstate]
        cases hfind : find crlf (buffer.drop pos) with
        | none => simp [findFrom,hfind,machine_of_no_line hstate hfind,report,hne]
        | some i =>
          have hle := add_length_le_of_find hfind
          rw [machine_of_line hstate hfind]
          simp only [findFrom,hfind,Option.map_some,Nat.add_sub_cancel]
          cases hline : p.onLine ((buffer.drop pos).take i) with
          | inl left => rfl
          | inr q =>
            simp only [Sum.map_inr,drop_drop]
            rw [ih (by simp only [crlf,length_cons,length_nil] at hle; omega)]
            congr 3
            omega
    · have hnil : buffer.drop pos = [] := by simpa using hpos
      rw [if_neg hpos,hnil,machine_nil]
      simp [report]

lemma feed_eq (p : HttpParser) (data : Bytes) :
    p.feed data = report (p.buffer++data) (run machine p.toParserState (p.buffer++data)) := by
  rw [HttpParser.feed,feedLoop_eq (by omega)]
  rfl

lemma feedUntil_eq_ending {p : HttpParser} (hstate : p.state ≠ .kDone)
    (hwaits : run machine p.toParserState p.buffer = .waiting p.toParserState p.buffer) (chunks : List Bytes) :
    p.feedUntil chunks = ending (run machine p.toParserState (p.buffer++chunks.flatten)) := by
  induction chunks generalizing p with
  | nil => simp [HttpParser.feedUntil,hwaits,ending,report,hstate]
  | cons c cs ih =>
    have happend := run_append machine_consumes machine_stable p.toParserState (p.buffer++c) cs.flatten
    rw [append_assoc] at happend
    unfold HttpParser.feedUntil
    rw [feed_eq,flatten_cons,happend]
    cases hrun : run machine p.toParserState (p.buffer++c) with
    | done left =>
      obtain ⟨q,b,hq⟩ := exists_of_done machine_consumes hrun
      have hne := ne_needMoreData_of_machine hq
      obtain ⟨result,q⟩ := left
      cases result with
      | error e => rfl
      | ok result =>
        cases result with
        | kOk | kError => rfl
        | kNeedMoreData => exact absurd rfl hne
    | waiting q rest =>
      have hq : q.state ≠ .kDone := of_waiting machine_consumes (fun _ _ _ _ => state_of_machine) hstate hrun
      have hwaits' : run machine q rest = .waiting q rest := by
        have hagain := run_append machine_consumes machine_stable p.toParserState (p.buffer++c) []
        rw [append_nil,hrun,Outcome.feed,append_nil] at hagain
        exact hagain.symm
      have hresult : (report (p.buffer++c) (.waiting q rest)).1 = .ok .kNeedMoreData := by simp [report,hq]
      rw [hresult]
      exact ih (p := ⟨q,rest⟩) hq hwaits'

/-- However a request is cut, feeding the chunks ends as feeding the whole does. -/
theorem feedUntil_eq_feed (chunks : List Bytes) :
    HttpParser.new.feedUntil chunks =
      ((HttpParser.new.feed chunks.flatten).1,(HttpParser.new.feed chunks.flatten).2.req) := by
  rw [feedUntil_eq_ending (by decide) (by decide),feed_eq,ending_eq]

end Feed
end TitanKV.Skynet
