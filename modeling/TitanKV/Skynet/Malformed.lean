import TitanKV.Library.Streaming
import TitanKV.Skynet.HttpMessage

/-! Malformed requests. The parser cuts the value of a header two bytes behind the colon and hands the one of a
length to `std::stoul`; it cuts the request line at spaces without asking whether there are any. -/
namespace TitanKV.Skynet
open Minikv Searching Incremental List Option HttpParser Parsing

def nextLine (b : Bytes) : Option (Bytes × Bytes) := (find crlf b).map fun i => (b.take i,b.drop (i+2))

def lines (b : Bytes) : List Bytes := many nextLine b

/-- The lines behind the request line that the parser takes for headers. -/
def headerLines (b : Bytes) : List Bytes := (lines b).tail.takeWhile (58 ∈ ·)

def headerName (line : Bytes) : Bytes := line.takeWhile (· ≠ 58)

def behindColon (line : Bytes) : Bytes := (line.dropWhile (· ≠ 58)).tail

/-- Nothing stands behind the colon, or a length is no number of 64 bits. -/
def Unreadable (line : Bytes) : Prop :=
  behindColon line = [] ∨ headerName line = contentLengthName ∧ ∀ n, stoul ((behindColon line).drop 1) ≠ .ok n

section Headers
variable {p : ParserState} {line : Bytes}

lemma nextLine_consumes : Consumes nextLine := by
  intro b line rest h
  obtain ⟨i,hi,heq⟩ := map_eq_some_iff.mp h
  obtain ⟨-,rfl⟩ := Prod.mk.inj heq
  have hle := add_length_le_of_find hi
  simp only [crlf,length_cons,length_nil] at hle
  simp only [length_drop]
  omega

section
variable (hstate : p.state = .kHeaderName) (h : 58 ∈ line)
include hstate h

lemma onLine_of_colon : p.onLine line =
    if behindColon line = [] then .inl (.error .outOfRange,p)
      else p.addHeader (headerName line) ((behindColon line).drop 1) := by
  obtain ⟨hname,hbehind⟩ := find_singleton 58 line
  cases hfind : find [58] line with
  | none => exact absurd ((singleton_infix_iff 58 line).mpr h) (find_eq_none_iff.mp hfind)
  | some colon =>
    simp only [hfind,elim_some] at hname hbehind
    have hle := add_length_le_of_find hfind
    simp only [ParserState.onLine,hstate,ne_nil_of_mem h,if_false,hfind,headerName,behindColon,← hname,← hbehind,
      drop_drop,drop_eq_nil_iff]
    exact if_congr (by omega) rfl rfl

lemma onLine_of_unreadable (hun : Unreadable line) :
    ∃ e q, p.onLine line = .inl (.error e,q) := by
  rw [onLine_of_colon hstate h]
  obtain hbare | ⟨hname,hstoul⟩ := hun
  · exact ⟨_,_,if_pos hbare⟩
  · split_ifs
    · exact ⟨_,_,rfl⟩
    · rw [ParserState.addHeader,if_pos hname]
      cases hvalue : stoul ((behindColon line).drop 1) with
      | error e => exact ⟨e,_,rfl⟩
      | ok n => exact absurd hvalue (hstoul n)

lemma onLine_of_readable (hread : ¬Unreadable line) :
    ∃ q, p.onLine line = .inr q ∧ q.state = .kHeaderName := by
  obtain ⟨hbare,hlength⟩ := not_or.mp hread
  rw [onLine_of_colon hstate h,if_neg hbare]
  obtain ⟨e,q,hadd⟩ | ⟨q,hadd,hq⟩ := addHeader_left_or_kept p (headerName line) ((behindColon line).drop 1)
  · refine absurd ?_ hlength
    unfold ParserState.addHeader at hadd
    split_ifs at hadd with hname
    refine ⟨hname,fun n hn => ?_⟩
    rw [hn] at hadd
    cases hadd
  · exact ⟨q,hadd,hq.trans hstate⟩

end

lemma onLine_of_no_colon (hstate : p.state = .kHeaderName) (h : 58 ∉ line) :
    (∃ r q, p.onLine line = .inl (.ok r,q)) ∨ ∃ q, p.onLine line = .inr q ∧ q.state = .kBody := by
  have hfind : find [58] line = none := find_eq_none_iff.mpr (mt (singleton_infix_iff 58 line).mp h)
  simp only [ParserState.onLine,hstate,hfind]
  split_ifs
  · exact .inr ⟨_,rfl,rfl⟩
  · exact .inl ⟨_,_,rfl⟩
  · exact .inl ⟨_,_,rfl⟩

def Raises (o : Outcome ParserState Left UInt8) : Prop := ∃ e, (ending o).1 = .error e

lemma not_raises_body (hstate : p.state = .kBody) (b : Bytes) : ¬Raises (run machine p b) := by
  by_cases hne : b = []
  · rw [hne,run_of_none machine_nil]
    simp [Raises,ending,report]
  · have hmachine := machine_of_body hstate hne
    split_ifs at hmachine
    · rw [run_of_done hmachine]
      simp [Raises,ending,report]
    · rw [run_of_none hmachine]
      simp [Raises,ending,report]

lemma raises_iff (hstate : p.state = .kHeaderName) (b : Bytes) :
    Raises (run machine p b) ↔ ∃ line ∈ (lines b).takeWhile (58 ∈ ·), Unreadable line := by
  have hbody {q : ParserState} (hq : q.state = .kHeaderName) : q.state ≠ .kBody := by simp [hq]
  -- by induction along the lines, while the parser stays among the headers
  induction b using many_induction nextLine_consumes generalizing p with
  | stop b h =>
    have hfind : find crlf b = none := map_eq_none_iff.mp h
    rw [lines,many_of_none h,run_of_none (machine_of_no_line (hbody hstate) hfind)]
    simp [Raises,ending,report]
  | item b line rest h ih =>
    obtain ⟨i,hi,heq⟩ := map_eq_some_iff.mp h
    obtain ⟨hline,hrest⟩ := Prod.mk.inj heq
    have hmachine := machine_of_line (hbody hstate) hi
    rw [hline,hrest] at hmachine
    rw [lines,many_of_some nextLine_consumes h]
    by_cases hcolon : 58 ∈ line
    · rw [takeWhile_cons_of_pos (by simpa using hcolon)]
      by_cases hun : Unreadable line
      · obtain ⟨e,q,honline⟩ := onLine_of_unreadable hstate hcolon hun
        rw [honline] at hmachine
        rw [run_of_done hmachine]
        simp [Raises,ending,report,hun]
      · obtain ⟨q,honline,hq⟩ := onLine_of_readable hstate hcolon hun
        rw [honline] at hmachine
        rw [run_of_next machine_consumes hmachine]
        refine (ih hq).trans ?_
        simp [lines,hun]
    · rw [takeWhile_cons_of_neg (by simpa using hcolon)]
      obtain ⟨r,q,honline⟩ | ⟨q,honline,hq⟩ := onLine_of_no_colon hstate hcolon
      · rw [honline] at hmachine
        rw [run_of_done hmachine]
        simp [Raises,ending,report]
      · rw [honline] at hmachine
        rw [run_of_next machine_consumes hmachine]
        simp [not_raises_body hq]

lemma run_new (b : Bytes) : run machine {} b = (nextLine b).elim (.waiting {} b)
    fun next => run machine { req := ({} : HttpRequest).setLine next.1, state := .kHeaderName } next.2 := by
  have hstate : ({} : ParserState).state ≠ .kBody := by decide
  cases hfind : find crlf b with
  | none =>
    rw [run_of_none (machine_of_no_line hstate hfind),nextLine,hfind]
    rfl
  | some i =>
    rw [run_of_next machine_consumes (machine_of_line hstate hfind),nextLine,hfind]
    rfl

end Headers

/-- However the bytes are cut, `feed` returns unless a header line is unreadable. -/
theorem feedUntil_returns_iff (chunks : List Bytes) :
    (∃ r, (new.feedUntil chunks).1 = .ok r) ↔ ∀ line ∈ headerLines chunks.flatten, ¬Unreadable line := by
  have hraises : (∃ r, (new.feedUntil chunks).1 = .ok r) ↔ ¬Raises (run machine {} chunks.flatten) := by
    rw [feedUntil_eq_ending (by decide) (by decide),Raises]
    change (∃ r, (ending (run machine {} chunks.flatten)).1 = _) ↔ _
    cases (ending (run machine {} chunks.flatten)).1 <;> simp
  rw [hraises,run_new,headerLines,lines]
  cases h : nextLine chunks.flatten with
  | none =>
    rw [many_of_none h]
    simp [Raises,ending,report]
  | some next =>
    rw [many_of_some nextLine_consumes h,elim_some,raises_iff rfl,tail_cons,lines]
    simp

/-- `GET / HTTP/1.1` with the header line `A:`. -/
theorem feed_raises : (new.feed (ascii ['G','E','T',' ','/',' ','H','T','T','P','/','1','.','1'] ++ (crlf ++
    (ascii ['A',':'] ++ (crlf++crlf))))).1 = .error .outOfRange := by
  decide +kernel

/-- A method, a target and a version with single spaces between them. -/
def WellFormed (line : Bytes) : Prop :=
  ∃ method target version, line = method ++ 32::(target ++ 32::version) ∧ method ≠ [] ∧ target ≠ [] ∧ 32 ∉ method ∧
    32 ∉ target

/-- With this first line the bytes are accepted only if it is well formed; a whole header block without two spaces in
its first line is an error. -/
def Guards (line rest : Bytes) : Prop :=
  ((new.feed (line++(crlf++rest))).1 = .ok .kOk → WellFormed line) ∧
    (crlf ++ crlf <:+: line ++ (crlf++rest) → line.count 32 < 2 → (new.feed (line++(crlf++rest))).1 = .ok .kError)

/-- The result does not depend on the request line, so the parser guards only what is well formed anyway. -/
theorem guards_iff {line : Bytes} (hline : ¬crlf <:+: line) : (∀ rest, Guards line rest) ↔ WellFormed line := by
  constructor
  · intro h
    refine (h crlf).1 ?_
    have hnext : nextLine (line++(crlf++crlf)) = some (line,crlf) := by
      rw [nextLine,find_crlf_append hline]
      simp [crlf,drop_append]
    rw [feed_eq]
    change (report _ (run machine {} (line++(crlf++crlf)))).1 = _
    rw [run_new,hnext,elim_some,← append_nil crlf,run_empty_line rfl rfl]
    rfl
  · intro h rest
    refine ⟨fun _ => h,fun _ hcount => ?_⟩
    obtain ⟨method,target,version,rfl,-⟩ := h
    simp only [count_append,count_cons_self] at hcount
    omega

theorem guards_request : Guards (ascii ['G','E','T',' ','/',' ','H','T','T','P']) crlf := by
  refine (guards_iff ?_).mpr ⟨ascii ['G','E','T'],ascii ['/'],ascii ['H','T','T','P'],rfl,?_⟩ crlf <;> decide

/-- A line that is only a method is accepted. -/
theorem feed_accepts_method : (new.feed (ascii ['G','E','T'] ++ (crlf++crlf))).1 = .ok .kOk := by
  decide +kernel

end TitanKV.Skynet
