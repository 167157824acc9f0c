import Mathlib.Data.List.TakeWhile
import TitanKV.Skynet.HttpParser

/-! Requests as they are written on the wire, and which of them the parser reads back. -/
namespace TitanKV.Skynet
open Minikv Searching Incremental List ParserState HttpParser

/-- A header with its value, and whether a space stands in front of it. -/
structure Header where
  name : Bytes
  spaced : Bool
  value : Bytes
  deriving DecidableEq,Repr

def Header.line (h : Header) : Bytes := h.name ++ 58::((if h.spaced then [32] else [])++h.value)

def Header.IsLength (h : Header) : Prop := toLower h.name = toLower contentLengthName

instance (h : Header) : Decidable h.IsLength := inferInstanceAs (Decidable (_ = _))

/-- A request whose lines can be told apart and whose headers agree on the length of its body. -/
structure Message where
  method : Bytes
  target : Bytes
  version : Bytes
  headers : List Header
  body : Bytes
  method_plain : 32 ∉ method ∧ ¬crlf <:+: method
  target_plain : 32 ∉ target ∧ ¬crlf <:+: target
  version_plain : ¬crlf <:+: version
  names_plain : ∀ h ∈ headers, 58 ∉ h.name ∧ ¬crlf <:+: h.name
  values_plain : ∀ h ∈ headers, 13 ∉ h.value ∧ 10 ∉ h.value ∧ h.value.head? ≠ some 32
  lengths : ∀ h ∈ headers, h.IsLength → h.value ≠ [] ∧ h.value.all isDigit = true ∧ numeral h.value = body.length
  announced : body ≠ [] → ∃ h ∈ headers, h.IsLength
  fits : body.length<2^64

namespace Message

def requestLine (m : Message) : Bytes := m.method ++ 32::(m.target ++ 32::m.version)

def serialise (m : Message) : Bytes :=
  m.requestLine++(crlf++((m.headers.flatMap fun h => h.line++crlf)++(crlf++m.body)))

def path (m : Message) : Bytes := m.target.takeWhile (· ≠ 63)

def query (m : Message) : Bytes := (m.target.dropWhile (· ≠ 63)).tail

/-- The parser returns the request. -/
structure ReadBack (m : Message) (r : Except StdException ParseResult × HttpParser) : Prop where
  result : r.1 = .ok .kOk
  method : r.2.req.method = m.method
  path : r.2.req.path = m.path
  query : r.2.req.query = m.query
  version : r.2.req.version = m.version
  headers : r.2.req.headers.all = m.headers.map fun h => (h.name,h.value)
  body : r.2.req.body = m.body

/-- All headers have the space, and a body is announced in the spelling that the parser knows. -/
def Readable (m : Message) : Prop := (∀ h ∈ m.headers, h.spaced = true) ∧
    (m.body ≠ [] → ∃ h ∈ m.headers, h.name = contentLengthName)

end Message

section Lines
variable {p q : ParserState} {line rest : Bytes}

lemma find_crlf_append (h : ¬crlf <:+: line) (rest : Bytes) : find crlf (line++(crlf++rest)) = some line.length := by
  induction line with
  | nil => exact find_eq_some_zero (prefix_append _ _)
  | cons x line ih =>
    rw [infix_cons_iff,not_or] at h
    have hprefix : ¬crlf <+: x::(line++(crlf++rest)) := by
      intro hp
      obtain ⟨rfl,hrest⟩ := cons_prefix_cons.mp hp
      cases line with
      | nil => simp [crlf] at hrest
      | cons y line =>
        obtain ⟨rfl,-⟩ := cons_prefix_cons.mp hrest
        exact h.1 (prefix_append [13,10] line)
    rw [cons_append,find,if_neg hprefix,ih h.2]
    rfl

section
variable (hstate : p.state ≠ .kBody) (h : ¬crlf <:+: line)
include hstate h

lemma machine_line (rest : Bytes) :
    machine p (line++(crlf++rest)) = some ((p.onLine line).map id fun p => (p,rest)) := by
  have hdrop : (line++(crlf++rest)).drop (line.length+2) = rest := by
    rw [← append_assoc]
    exact drop_left' (by simp [crlf])
  rw [machine_of_line hstate (find_crlf_append h rest),take_left,hdrop]

lemma run_line (hline : p.onLine line = .inr q) :
    run machine p (line++(crlf++rest)) = run machine q rest :=
  run_of_next machine_consumes (by rw [machine_line hstate h,hline]; rfl)

lemma run_last_line {left : Left} (hline : p.onLine line = .inl left) :
    run machine p (line++(crlf++rest)) = .done left :=
  run_of_done (by rw [machine_line hstate h,hline]; rfl)

end

lemma setLine_requestLine (req : HttpRequest) (hquery : req.query = []) (m : Message) :
    req.setLine m.requestLine =
      { req with method := m.method, path := m.path, query := m.query, version := m.version } := by
  have hsp1 : find [32] m.requestLine = some m.method.length :=
    find_cons_append m.method_plain.1 [] (m.target ++ 32::m.version)
  have hdrop : m.requestLine.drop (m.method.length+1) = m.target ++ 32::m.version := by
    simp [Message.requestLine,drop_append]
  have hsp2 : find [32] (m.target ++ 32::m.version) = some m.target.length :=
    find_cons_append m.target_plain.1 [] m.version
  have hversion : m.requestLine.drop (m.target.length+(m.method.length+1)+1) = m.version := by
    rw [show m.target.length+(m.method.length+1)+1 =
      m.method.length+1+(m.target.length+1) by omega,← drop_drop,hdrop]
    simp [drop_append]
  obtain ⟨hpath,hquery'⟩ := find_singleton 63 m.target
  simp only [HttpRequest.setLine,hsp1,Option.elim_some,findFrom,hdrop,hsp2,Option.map_some,Nat.add_sub_cancel,
    take_left,hversion,hpath,hquery,hquery']
  simp [Message.requestLine,Message.path,Message.query]

lemma stoul_of_digits {ds : Bytes} (hne : ds ≠ []) (hdigits : ds.all isDigit = true) (hlt : numeral ds < 2^64) :
    stoul ds = .ok (numeral ds) := by
  obtain ⟨d,ds,rfl⟩ := exists_cons_of_ne_nil hne
  have hall : (d::ds).takeWhile isDigit = d::ds := takeWhile_eq_self_iff.mpr (all_eq_true.mp hdigits)
  have hd : isDigit d = true := all_eq_true.mp hdigits d mem_cons_self
  have hlarge : 48≤d.toNat := by
    simp only [isDigit,decide_eq_true_eq] at hd
    exact UInt8.le_iff_toNat_le.mp hd.1
  have hspace : isSpace d = false := by
    simp only [isSpace,decide_eq_false_iff_not]
    rintro (rfl | ⟨-,hle⟩)
    · exact absurd hlarge (by decide)
    · exact absurd (hlarge.trans (UInt8.le_iff_toNat_le.mp hle)) (by decide)
  have hsign : d ≠ 45 ∧ d ≠ 43 := by
    constructor <;> rintro rfl <;> exact absurd hlarge (by decide)
  have hnumber : number (d::ds) = some (false,numeral (d::ds)) := by
    simp [number,hspace,hsign,hall]
  simp only [stoul,hnumber,if_neg (Nat.not_le.mpr hlt),Bool.false_eq_true,if_false]

end Lines
def Header.seen (h : Header) : Bytes := if h.spaced then h.value else h.value.drop 1

def Headers.addAll (acc : Headers) (hs : List Header) : Headers := hs.foldl (fun acc h => acc.add h.name h.seen) acc

@[simp] lemma Headers.all_addAll (acc : Headers) (hs : List Header) :
    (acc.addAll hs).all = acc.all ++ hs.map fun h => (h.name,h.seen) := by
  induction hs generalizing acc with
  | nil => simp [addAll]
  | cons h hs ih =>
    have hstep : acc.addAll (h::hs) = (acc.add h.name h.seen).addAll hs := rfl
    rw [hstep,ih]
    simp [add]

/-- The state behind some headers, with the length that was announced. -/
def ParserState.withHeaders (p : ParserState) (hs : List Header) (n : ℕ) : ParserState :=
  { p with req := { p.req with headers := p.req.headers.addAll hs }, contentLength := n }

section HeaderLines
variable {m : Message} {h : Header} {p : ParserState}

lemma not_crlf_line (hh : h ∈ m.headers) : ¬crlf <:+: h.line := by
  obtain ⟨hcr,-,-⟩ := m.values_plain h hh
  have hvalue : ¬crlf <:+: (if h.spaced then [32] else []) ++ h.value := by
    intro hinfix
    have hmem : 13 ∈ (if h.spaced then [32] else []) ++ h.value := hinfix.subset (by simp [crlf])
    split at hmem <;> simp [hcr] at hmem
  rw [Header.line,infix_append_cons_iff (by decide)]
  exact not_or.mpr ⟨(m.names_plain h hh).2,hvalue⟩

/-- A header without a space loses the first byte of its value. -/
lemma onLine_header (hh : h ∈ m.headers) (hstate : p.state = .kHeaderName) :
    p.onLine h.line = if h.spaced = false ∧ h.value = [] then .inl (.error .outOfRange,p)
      else p.addHeader h.name h.seen := by
  have hfind : find [58] h.line = some h.name.length := find_cons_append (m.names_plain h hh).1 [] _
  have htake : h.line.take h.name.length = h.name := by simp [Header.line]
  have hne : h.line ≠ [] := by simp [Header.line]
  simp only [onLine,hstate,hne,if_false,hfind,htake]
  cases hspaced : h.spaced with
  | true =>
    have hlength : ¬h.line.length<h.name.length+2 := by simp [Header.line,hspaced]
    have hdrop : h.line.drop (h.name.length+2) = h.value := by simp [Header.line,hspaced,drop_append]
    simp [hlength,hdrop,Header.seen,hspaced]
  | false =>
    have hdrop : h.line.drop (h.name.length+2) = h.value.drop 1 := by simp [Header.line,hspaced,drop_append]
    have hlength : h.line.length<h.name.length+2 ↔ h.value = [] := by
      simp [Header.line,hspaced,← length_eq_zero_iff]
    simp [hlength,hdrop,Header.seen,hspaced]

lemma isLength_of_name (hname : h.name = contentLengthName) : h.IsLength := by rw [Header.IsLength,hname]

/-- A header is added, unless its value is taken for a length and is none. -/
lemma addHeader_cases (hh : h ∈ m.headers) :
    (∃ e q, p.addHeader h.name h.seen = .inl (.error e,q) ∧ h.spaced = false) ∨
      ∃ n, p.addHeader h.name h.seen = .inr (p.withHeaders [h] n) ∧
        (h.spaced = true → n = if h.name = contentLengthName then m.body.length else p.contentLength) := by
  unfold addHeader
  by_cases hname : h.name = contentLengthName
  · rw [if_pos hname]
    cases hstoul : stoul h.seen with
    | error e =>
      refine Or.inl ⟨e,_,rfl,?_⟩
      by_contra hspaced
      rw [Bool.not_eq_false] at hspaced
      obtain ⟨hne,hdigits,hnumeral⟩ := m.lengths h hh (isLength_of_name hname)
      rw [Header.seen,if_pos hspaced,stoul_of_digits hne hdigits (hnumeral ▸ m.fits)] at hstoul
      cases hstoul
    | ok n =>
      refine Or.inr ⟨n,rfl,fun hspaced => ?_⟩
      obtain ⟨hne,hdigits,hnumeral⟩ := m.lengths h hh (isLength_of_name hname)
      rw [Header.seen,if_pos hspaced,stoul_of_digits hne hdigits (hnumeral ▸ m.fits),Except.ok.injEq] at hstoul
      rw [if_pos hname,← hstoul,hnumeral]
  · rw [if_neg hname]
    exact Or.inr ⟨p.contentLength,rfl,fun _ => (if_neg hname).symm⟩

lemma run_headers {hs : List Header} (hhs : ∀ h ∈ hs, h ∈ m.headers) (hstate : p.state = .kHeaderName)
    (rest : Bytes) :
    (∃ e q, run machine p ((hs.flatMap fun h => h.line++crlf)++rest) = .done (.error e,q) ∧
      ∃ h ∈ hs, h.spaced = false) ∨
      ∃ n, run machine p ((hs.flatMap fun h => h.line++crlf)++rest) = run machine (p.withHeaders hs n) rest ∧
        (∀ h ∈ hs, h.spaced = true ∨ h.value ≠ []) ∧
        ((∀ h ∈ hs, h.spaced = true) → n = if ∃ h ∈ hs, h.name = contentLengthName then m.body.length
          else p.contentLength) := by
  induction hs generalizing p with
  | nil => exact Or.inr ⟨p.contentLength,rfl,by simp,by simp⟩
  | cons h hs ih =>
    have hh : h ∈ m.headers := hhs h mem_cons_self
    have hbody : p.state ≠ .kBody := by rw [hstate]; decide
    have hsplit : ((h::hs).flatMap fun h => h.line++crlf)++rest =
      h.line++(crlf++((hs.flatMap fun h => h.line++crlf)++rest)) := by simp
    have hline := onLine_header (p := p) hh hstate
    rw [hsplit]
    by_cases hempty : h.spaced = false ∧ h.value = []
    · rw [if_pos hempty] at hline
      exact Or.inl ⟨_,_,run_last_line hbody (not_crlf_line hh) hline,h,mem_cons_self,hempty.1⟩
    · rw [if_neg hempty] at hline
      obtain ⟨e,q,hadd,hspaced⟩ | ⟨n,hadd,hn⟩ := addHeader_cases (p := p) hh
      · exact Or.inl ⟨e,q,run_last_line hbody (not_crlf_line hh) (hline.trans hadd),h,mem_cons_self,hspaced⟩
      · rw [run_line hbody (not_crlf_line hh) (hline.trans hadd)]
        obtain ⟨e,q,hrun,h',hh',hspaced⟩ | ⟨n',hrun,hvalues,hn'⟩ :=
          ih (p := p.withHeaders [h] n) (fun h hh => hhs h (mem_cons_of_mem _ hh)) hstate
        · exact Or.inl ⟨e,q,hrun,h',mem_cons_of_mem _ hh',hspaced⟩
        · refine Or.inr ⟨n',hrun,?_,fun hall => ?_⟩
          · intro h' hh'
            obtain rfl | hh' := mem_cons.mp hh'
            · by_contra hnone
              simp only [not_or,Bool.not_eq_true,not_not] at hnone
              exact hempty hnone
            · exact hvalues h' hh'
          · have hlength : (p.withHeaders [h] n).contentLength = n := rfl
            rw [hn' fun h' hh' => hall h' (mem_cons_of_mem _ hh'),hlength,hn (hall h mem_cons_self)]
            by_cases hname : h.name = contentLengthName <;> by_cases hrest : ∃ h' ∈ hs,
              h'.name = contentLengthName <;>
              simp [hname,hrest]

lemma run_empty_line (hstate : p.state = .kHeaderName) (hchunked : p.chunked = false) (body : Bytes) :
    run machine p (crlf++body) =
      if 0<p.contentLength then run machine { p with state := .kBody } body
        else .done (.ok .kOk,{ p with state := .kDone }) := by
  have hbody : p.state ≠ .kBody := by rw [hstate]; decide
  have hempty : ¬crlf <:+: ([] : Bytes) := by simp [crlf]
  have hline : p.onLine [] =
      if 0<p.contentLength then .inr { p with state := .kBody } else .inl (.ok .kOk,{ p with state := .kDone }) := by
    simp [onLine,hstate,hchunked]
  split_ifs at hline ⊢
  · exact run_line hbody hempty hline
  · exact run_last_line hbody hempty hline

lemma readBack_iff (hstate : p.state = .kHeaderName) (hchunked : p.chunked = false)
    (hmethod : p.req.method = m.method) (hpath : p.req.path = m.path) (hquery : p.req.query = m.query)
    (hversion : p.req.version = m.version) (hbody : p.req.body = []) (buffer : Bytes) :
    m.ReadBack (report buffer (run machine p (crlf++m.body))) ↔
      p.req.headers.all = (m.headers.map fun h => (h.name,h.value)) ∧ p.contentLength = m.body.length := by
  rw [run_empty_line hstate hchunked]
  split_ifs with hpos
  · by_cases hle : p.contentLength ≤ m.body.length
    · have hne : m.body ≠ [] := fun heq => by simp [heq] at hle; omega
      have hrun : run machine { p with state := .kBody } m.body =
          .done (.ok .kOk,withBody { p with state := .kBody } (m.body.take p.contentLength)) :=
        run_of_done (by rw [machine_of_body rfl hne,if_pos hle])
      rw [hrun]
      refine ⟨fun h => ⟨h.headers,?_⟩,fun ⟨hheaders,hlength⟩ => ⟨rfl,hmethod,hpath,hquery,hversion,hheaders,?_⟩⟩
      · have hlength := congrArg length h.body
        simp only [report,withBody,length_take] at hlength
        omega
      · simp [report,withBody,hlength]
    · have hrun : run machine { p with state := .kBody } m.body = .waiting { p with state := .kBody } m.body := by
        apply run_of_none
        by_cases hne : m.body = []
        · rw [hne,machine_nil]
        · rw [machine_of_body rfl hne,if_neg hle]
      rw [hrun]
      refine ⟨fun h => ?_,fun h => absurd h.2.le hle⟩
      have hresult := h.result
      simp [report] at hresult
  · refine ⟨fun h => ⟨h.headers,?_⟩,fun ⟨hheaders,hlength⟩ => ⟨rfl,hmethod,hpath,hquery,hversion,hheaders,?_⟩⟩
    · have hlength := congrArg length h.body
      simp only [report,hbody,length_nil] at hlength
      omega
    · have hnil : m.body = [] := length_eq_zero_iff.mp (by omega)
      rw [hnil]
      exact hbody

/-- A header that is read without its space is read wrongly. -/
lemma seen_eq_value_iff (hvalue : h.spaced = true ∨ h.value ≠ []) : h.seen = h.value ↔ h.spaced = true := by
  unfold Header.seen
  split_ifs with hspaced
  · simp [hspaced]
  · refine iff_of_false (fun heq => ?_) hspaced
    have hpos := length_pos_iff.mpr (hvalue.resolve_left hspaced)
    have hlength := congrArg length heq
    rw [length_drop] at hlength
    omega

lemma not_crlf_requestLine (m : Message) : ¬crlf <:+: m.requestLine := by
  rw [Message.requestLine,infix_append_cons_iff (by decide),infix_append_cons_iff (by decide)]
  exact not_or.mpr ⟨m.method_plain.2,not_or.mpr ⟨m.target_plain.2,m.version_plain⟩⟩

def Message.started (m : Message) : ParserState :=
  { state := .kHeaderName, req := { method := m.method, path := m.path, query := m.query, version := m.version } }

lemma run_serialise (m : Message) :
    run machine {} m.serialise =
      run machine m.started ((m.headers.flatMap fun h => h.line++crlf)++(crlf++m.body)) := by
  refine run_line (by decide) (not_crlf_requestLine m) ?_
  rw [onLine]
  simp only [setLine_requestLine]
  rfl

end HeaderLines

/-- The parser returns a request that was written exactly if every header has its space and a body is announced as
`Content-Length`. -/
theorem readBack_iff_readable (m : Message) : m.ReadBack (new.feed m.serialise) ↔ m.Readable := by
  have hfeed : new.feed m.serialise = report m.serialise (run machine {} m.serialise) := feed_eq new m.serialise
  rw [hfeed,run_serialise]
  obtain ⟨e,q,hrun,h,hh,hspaced⟩ | ⟨n,hrun,hvalues,hn⟩ :=
    run_headers (p := m.started) (fun h hh => hh) rfl (crlf++m.body)
  · rw [hrun]
    refine iff_of_false (fun hread => ?_) fun hreadable => ?_
    · cases hread.result
    · simp [hreadable.1 h hh] at hspaced
  · rw [hrun,readBack_iff (p := m.started.withHeaders m.headers n) rfl rfl rfl rfl rfl rfl rfl]
    have hheaders : (m.started.withHeaders m.headers n).req.headers.all = (m.headers.map fun h => (h.name,h.value)) ↔
        ∀ h ∈ m.headers, h.spaced = true := by
      simp only [withHeaders,Headers.all_addAll,Message.started,nil_append,map_inj_left,Prod.mk.injEq,true_and]
      exact forall₂_congr fun h hh => seen_eq_value_iff (hvalues h hh)
    have hlength : (m.started.withHeaders m.headers n).contentLength = n := rfl
    rw [hheaders,hlength]
    refine and_congr_right fun hall => ?_
    rw [hn hall]
    split_ifs with hexists
    · simp [hexists]
    · have hzero : m.started.contentLength = 0 := rfl
      rw [hzero,eq_comm,length_eq_zero_iff]
      simp only [hexists,imp_false,not_not]

/-- `Host:x`, without a space. -/
def unspacedHost : Message where
  method := ascii ['G','E','T']
  target := ascii ['/']
  version := ascii ['H','T','T','P','/','1','.','1']
  headers := [⟨ascii ['H','o','s','t'],false,ascii ['x']⟩]
  body := []
  method_plain := by decide
  target_plain := by decide
  version_plain := by decide
  names_plain := by decide
  values_plain := by decide
  lengths := by decide
  announced := by decide
  fits := by decide

/-- A body that is announced as `content-length`. -/
def lowerCaseLength : Message where
  method := ascii ['P','U','T']
  target := ascii ['/']
  version := ascii ['H','T','T','P','/','1','.','1']
  headers := [⟨ascii ['c','o','n','t','e','n','t','-','l','e','n','g','t','h'],true,ascii ['1']⟩]
  body := ascii ['x']
  method_plain := by decide
  target_plain := by decide
  version_plain := by decide
  names_plain := by decide
  values_plain := by decide
  lengths := by decide
  announced := by decide
  fits := by decide

/-- The value of the first one and the body of the second one are lost. -/
theorem feed_loses_bytes :
    (new.feed unspacedHost.serialise).1 = .ok .kOk ∧
      (new.feed unspacedHost.serialise).2.req.headers.all = [(ascii ['H','o','s','t'],[])] ∧
      (new.feed lowerCaseLength.serialise).1 = .ok .kOk ∧ (new.feed lowerCaseLength.serialise).2.req.body = [] := by
  decide +kernel

end TitanKV.Skynet
