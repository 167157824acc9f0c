import TitanKV.Library.Directory
import TitanKV.Minikv.Paths

/-! The patterns of the router. `match` walks along the pattern and the path; a parameter takes what comes before the
next slash of the path, also nothing if a slash follows at once. -/
namespace TitanKV.Skynet.Router
open Minikv List

abbrev Params := Directory Bytes Bytes

/-- The loop of `match`. A position is given by what is left behind it, and `npos` leaves nothing. -/
def matchLoop : Bytes → Bytes → Params → Bool × Params
  | c::p,d::s,params =>
    if c = 58 then
      matchLoop (p.dropWhile (· ≠ 47)) ((d::s).dropWhile (· ≠ 47))
        (params.set (p.takeWhile (· ≠ 47)) ((d::s).takeWhile (· ≠ 47)))
    else if c ≠ d then (false,params)
    else matchLoop p s params
  | p,s,params => (p.isEmpty && s.isEmpty,params)
termination_by p => p.length
decreasing_by
  · exact Nat.lt_succ_of_le (dropWhile_suffix _).length_le
  · simp

def matchPath (pattern path : Bytes) : Bool × Params := if pattern = path then (true,[])
    else matchLoop pattern path []

def segments (s : Bytes) : List Bytes := s.splitOn 47

def IsParam (seg : Bytes) : Prop := seg.head? = some 58

instance (seg : Bytes) : Decidable (IsParam seg) := inferInstanceAs (Decidable (_ = _))

/-- A literal segment faces itself, and a parameter something. -/
def Fits (seg part : Bytes) : Prop := if IsParam seg then part ≠ [] else seg = part

/-- Colons occur at the start of segments only. -/
def ColonsLead (pattern : Bytes) : Prop := ∀ seg ∈ segments pattern, 58 ∉ seg.tail

def pairs (pattern path : Bytes) : List (Bytes × Bytes) := (segments pattern).zip (segments path)

/-- What `match` should do. -/
structure Exact (pattern path : Bytes) : Prop where
  result : (matchPath pattern path).1 = true ↔ List.Forall₂ Fits (segments pattern) (segments path)
  params : (matchPath pattern path).1 = true → (((segments pattern).filter (IsParam ·)).map tail).Nodup →
    ∀ pair ∈ pairs pattern path, IsParam pair.1 → (matchPath pattern path).2.get pair.1.tail = some pair.2

/-- A parameter that is not the last segment faces an empty one. -/
def Gap (pattern path : Bytes) : Prop := ∃ pair ∈ (pairs pattern path).dropLast, IsParam pair.1 ∧ pair.2 = []

section Segments
variable {seg : Bytes}

lemma segments_of_not_mem (h : 47 ∉ seg) : segments seg = [seg] :=
  splitOnP_eq_singleton fun x hx => by simpa using fun heq : x = 47 => h (heq ▸ hx)

lemma segments_append (h : 47 ∉ seg) (rest : Bytes) : segments (seg ++ 47::rest) = seg::segments rest :=
  splitOnP_append_cons_of_forall_mem (fun x hx => by simpa using fun heq : x = 47 => h (heq ▸ hx)) 47 (by simp) rest

lemma segments_ne_nil (s : Bytes) : segments s ≠ [] := splitOn_ne_nil 47 s

theorem segments_induction {motive : Bytes → Prop} (last : ∀ seg, 47 ∉ seg → motive seg)
    (more : ∀ seg rest, 47 ∉ seg → motive rest → motive (seg ++ 47::rest)) (s : Bytes) : motive s := by
  induction hn : s.length using Nat.strong_induction_on generalizing s with
  | _ n ih =>
    by_cases h : 47 ∈ s
    · obtain ⟨seg,rest,rfl,hseg⟩ := eq_append_cons_of_mem h
      rw [length_append,length_cons] at hn
      exact more seg rest hseg (ih rest.length (by omega) rest rfl)
    · exact last s h

lemma takeWhile_segment (h : 47 ∉ seg) {s : Bytes} (hs : ∀ c ∈ s.head?, c = 47) :
    (seg++s).takeWhile (· ≠ 47) = seg ∧ (seg++s).dropWhile (· ≠ 47) = s := by
  have hall : ∀ x ∈ seg, decide (x ≠ 47) = true := fun x hx => by simpa using fun heq : x = 47 => h (heq ▸ hx)
  rw [takeWhile_append_of_pos hall,dropWhile_append_of_pos hall]
  cases s with
  | nil => simp
  | cons c s =>
    obtain rfl := hs c rfl
    simp

end Segments

def bind (params : Params) (pair : Bytes × Bytes) : Params :=
  if IsParam pair.1 then params.set pair.1.tail pair.2 else params

section Loop
variable {seg part p s : Bytes} {params : Params}

lemma matchLoop_nil_left : matchLoop [] s params = (s.isEmpty,params) := by simp [matchLoop]

lemma matchLoop_nil_right : matchLoop p [] params = (p.isEmpty,params) := by cases p <;> simp [matchLoop]

lemma matchLoop_cons {c : UInt8} (h : c ≠ 58) : matchLoop (c::p) (c::s) params = matchLoop p s params := by
  rw [matchLoop,if_neg h,if_neg (not_not.mpr rfl)]

lemma matchLoop_literal (h : 58 ∉ seg) : matchLoop (seg++p) (seg++s) params = matchLoop p s params := by
  induction seg with
  | nil => rfl
  | cons c seg ih =>
    rw [mem_cons,not_or] at h
    rw [cons_append,cons_append,matchLoop_cons (Ne.symm h.1),ih h.2]

lemma matchLoop_of_ne (hne : seg ≠ part) (hcolon : 58 ∉ seg) (hseg : 47 ∉ seg) (hpart : 47 ∉ part)
    (hp : ∀ c ∈ p.head?, c = 47) (hs : ∀ c ∈ s.head?, c = 47) : (matchLoop (seg++p) (part++s) params).1 = false := by
  induction seg generalizing part with
  | nil =>
    obtain ⟨d,part,rfl⟩ := exists_cons_of_ne_nil hne.symm
    rw [mem_cons,not_or] at hpart
    cases p with
    | nil => simp [matchLoop_nil_left]
    | cons c p =>
      obtain rfl := hp c rfl
      simp [matchLoop,hpart.1]
  | cons c seg ih =>
    rw [mem_cons,not_or] at hcolon hseg
    cases part with
    | nil =>
      cases s with
      | nil => simp [matchLoop_nil_right]
      | cons d s =>
        obtain rfl := hs d rfl
        simp [matchLoop,Ne.symm hcolon.1,Ne.symm hseg.1]
    | cons d part =>
      rw [mem_cons,not_or] at hpart
      by_cases hd : c = d
      · subst hd
        rw [cons_append,cons_append,matchLoop_cons (Ne.symm hcolon.1)]
        exact ih (fun heq => hne (heq ▸ rfl)) hcolon.2 hseg.2 hpart.2
      · simp [matchLoop,Ne.symm hcolon.1,hd]

lemma matchLoop_param (hseg : 47 ∉ seg) (hpart : 47 ∉ part) (hp : ∀ c ∈ p.head?, c = 47) (hs : ∀ c ∈ s.head?, c = 47)
    (hne : part++s ≠ []) : matchLoop (58::(seg++p)) (part++s) params = matchLoop p s (params.set seg part) := by
  obtain ⟨d,t,ht⟩ := exists_cons_of_ne_nil hne
  rw [ht,matchLoop,if_pos rfl,← ht,(takeWhile_segment hseg hp).1,(takeWhile_segment hseg hp).2,
    (takeWhile_segment hpart hs).1,(takeWhile_segment hpart hs).2]

/-- The loop gets past a segment. A parameter only needs the path to go on. -/
def Passes (seg part s : Bytes) : Prop := if IsParam seg then part++s ≠ [] else seg = part

lemma matchLoop_segment (hseg : 47 ∉ seg) (hcolon : 58 ∉ seg.tail) (hpart : 47 ∉ part) (hp : ∀ c ∈ p.head?, c = 47)
    (hs : ∀ c ∈ s.head?, c = 47) :
    Passes seg part s ∧ matchLoop (seg++p) (part++s) params = matchLoop p s (bind params (seg,part)) ∨
      ¬Passes seg part s ∧ (matchLoop (seg++p) (part++s) params).1 = false := by
  by_cases hparam : IsParam seg
  · obtain ⟨name,rfl⟩ : ∃ name, seg = 58::name := head?_eq_some_iff.mp hparam
    rw [Passes,if_pos hparam,bind,if_pos hparam,cons_append]
    by_cases hne : part++s = []
    · rw [hne,matchLoop_nil_right]
      exact .inr ⟨not_not.mpr rfl,rfl⟩
    · exact .inl ⟨hne,matchLoop_param (fun h => hseg (mem_cons_of_mem _ h)) hpart hp hs hne⟩
  · have hliteral : 58 ∉ seg := by
      cases seg with
      | nil => simp
      | cons c seg => exact not_mem_cons_of_ne_of_not_mem (fun heq => hparam (by simp [IsParam,← heq])) hcolon
    rw [Passes,if_neg hparam,bind,if_neg hparam]
    by_cases heq : seg = part
    · subst heq
      exact .inl ⟨rfl,matchLoop_literal hliteral⟩
    · exact .inr ⟨heq,matchLoop_of_ne heq hliteral hseg hpart hp hs⟩

end Loop

/-- The segments fit, but for parameters before the last segment, which may face anything. -/
def Accepts : List Bytes → List Bytes → Prop
  | [seg],[part] => Passes seg part []
  | seg::segs,part::parts => Passes seg part [47] ∧ Accepts segs parts
  | _,_ => False

/-- The loop accepts these segments and binds their parameters. -/
def Handles (r : Bool × Params) (params : Params) (segs parts : List Bytes) : Prop :=
  (r.1 = true ↔ Accepts segs parts) ∧ (r.1 = true → r.2 = (segs.zip parts).foldl bind params)

lemma passes_slash {seg part s : Bytes} : Passes seg part (47::s) ↔ Passes seg part [47] := by simp [Passes]

theorem handles_matchLoop {pattern path : Bytes} {params : Params} (hcolons : ColonsLead pattern) :
    Handles (matchLoop pattern path params) params (segments pattern) (segments path) := by
  have hnil (s : Bytes) : ∃ part parts, segments s = part::parts := exists_cons_of_ne_nil (segments_ne_nil s)
  -- along the segments of the pattern, each of which is compared with the one that the path has there
  induction pattern using segments_induction generalizing path params with
  | last seg hseg =>
    rw [ColonsLead,segments_of_not_mem hseg,forall_mem_singleton] at hcolons
    rw [segments_of_not_mem hseg]
    by_cases hslash : 47 ∈ path
    · obtain ⟨part,rest,rfl,hpart⟩ := eq_append_cons_of_mem hslash
      have hstep := @matchLoop_segment seg part [] (47::rest) params hseg hcolons hpart (by simp) (by simp)
      rw [append_nil,matchLoop_nil_left] at hstep
      obtain ⟨x,xs,hx⟩ := hnil rest
      rw [segments_append hpart,hx]
      rcases hstep with ⟨-,hloop⟩ | ⟨-,hloop⟩ <;> simp [Handles,Accepts,hloop]
    · have hstep := @matchLoop_segment seg path [] [] params hseg hcolons hslash (by simp) (by simp)
      rw [append_nil,append_nil,matchLoop_nil_left] at hstep
      rw [segments_of_not_mem hslash]
      rcases hstep with ⟨hpass,hloop⟩ | ⟨hpass,hloop⟩ <;> simp [Handles,Accepts,hpass,hloop]
  | more seg rest hseg ih =>
    rw [ColonsLead,segments_append hseg,forall_mem_cons] at hcolons
    obtain ⟨x,xs,hx⟩ := hnil rest
    by_cases hslash : 47 ∈ path
    · obtain ⟨part,more,rfl,hpart⟩ := eq_append_cons_of_mem hslash
      have hstep := @matchLoop_segment seg part (47::rest) (47::more) params hseg hcolons.1 hpart (by simp) (by simp)
      rw [matchLoop_cons (by decide),passes_slash] at hstep
      have hrest := @ih more (bind params (seg,part)) hcolons.2
      obtain ⟨y,ys,hy⟩ := hnil more
      rw [hx,hy] at hrest
      rw [segments_append hseg,segments_append hpart,hx,hy]
      rcases hstep with ⟨hpass,hloop⟩ | ⟨hpass,hloop⟩
      · rw [hloop]
        simpa [Handles,Accepts,hpass] using hrest
      · simp [Handles,Accepts,hpass,hloop]
    · have hstep := @matchLoop_segment seg path (47::rest) [] params hseg hcolons.1 hslash (by simp) (by simp)
      rw [append_nil,matchLoop_nil_right] at hstep
      rw [segments_append hseg,segments_of_not_mem hslash,hx]
      rcases hstep with ⟨-,hloop⟩ | ⟨-,hloop⟩ <;> simp [Handles,Accepts,hloop]

lemma forall₂_fits_iff {segs parts : List Bytes} (hsegs : segs ≠ []) : List.Forall₂ Fits segs parts ↔
    Accepts segs parts ∧ ∀ pair ∈ (segs.zip parts).dropLast, IsParam pair.1 → pair.2 ≠ [] := by
  induction segs generalizing parts with
  | nil => exact absurd rfl hsegs
  | cons seg segs ih =>
    cases parts with
    | nil => simp [Accepts]
    | cons part parts =>
      cases segs with
      | nil => cases parts <;> simp [Accepts,Passes,Fits]
      | cons x segs =>
        rw [forall₂_cons,ih (by simp)]
        cases parts with
        | nil => simp [Accepts]
        | cons y parts =>
          by_cases hparam : IsParam seg <;> simp [Accepts,Passes,Fits,hparam] <;> tauto

section Params
variable {segs parts : List Bytes} {params : Params}

lemma get_foldl_bind_of_not_mem {k : Bytes} (h : k ∉ (segs.filter (IsParam ·)).map tail) :
    ((segs.zip parts).foldl bind params).get k = params.get k := by
  induction segs generalizing parts params with
  | nil => rfl
  | cons seg segs ih =>
    cases parts with
    | nil => rfl
    | cons part parts =>
      rw [zip_cons_cons,foldl_cons]
      by_cases hparam : IsParam seg
      · simp only [filter_cons,hparam,decide_true,if_true,map_cons,mem_cons,not_or] at h
        rw [ih h.2,bind,if_pos hparam,Directory.get_set,if_neg h.1]
      · simp only [filter_cons,hparam,decide_false] at h
        rw [ih h,bind,if_neg hparam]

lemma get_foldl_bind (hnames : ((segs.filter (IsParam ·)).map tail).Nodup) {pair : Bytes × Bytes}
    (hpair : pair ∈ segs.zip parts) (hparam : IsParam pair.1) :
    ((segs.zip parts).foldl bind params).get pair.1.tail = some pair.2 := by
  induction segs generalizing parts params with
  | nil => simp at hpair
  | cons seg segs ih =>
    cases parts with
    | nil => simp at hpair
    | cons part parts =>
      rw [zip_cons_cons] at hpair ⊢
      rw [foldl_cons]
      rcases mem_cons.mp hpair with rfl | hpair
      · simp only [filter_cons,hparam,decide_true,if_true,map_cons,nodup_cons] at hnames
        rw [get_foldl_bind_of_not_mem hnames.1,bind,if_pos hparam,Directory.get_set,if_pos rfl]
      · exact ih (hnames.sublist ((Sublist.filter _ (sublist_cons_self seg segs)).map _)) hpair

end Params

/-- The router is exact unless the segments fit but for an empty one that a parameter faces. -/
theorem exact_iff {pattern path : Bytes} (hcolons : ColonsLead pattern) (hne : path ≠ pattern) :
    Exact pattern path ↔ (Accepts (segments pattern) (segments path) → ¬Gap pattern path) := by
  obtain ⟨haccepts,hparams⟩ := @handles_matchLoop pattern path [] hcolons
  have hmatch : matchPath pattern path = matchLoop pattern path [] := if_neg (Ne.symm hne)
  rw [← hmatch] at haccepts hparams
  have hfits := @forall₂_fits_iff (segments pattern) (segments path) (segments_ne_nil pattern)
  have hgap : (∀ pair ∈ ((segments pattern).zip (segments path)).dropLast, IsParam pair.1 → pair.2 ≠ []) ↔
      ¬Gap pattern path := by
    simp only [Gap,pairs,not_exists,not_and]
  rw [hgap] at hfits
  constructor
  · intro h htrue
    exact (hfits.mp (h.result.mp (haccepts.mpr htrue))).2
  · intro h
    refine ⟨?_,fun htrue hnames pair hpair hparam => ?_⟩
    · rw [hfits,haccepts]
      exact ⟨fun htrue => ⟨htrue,h htrue⟩,And.left⟩
    · rw [hparams htrue]
      exact get_foldl_bind hnames hpair hparam

/-- `/:a` and `/b`. -/
theorem exact_of_param : Exact [47,58,97] [47,98] :=
  (exact_iff (by unfold ColonsLead; decide) (by decide)).mpr fun _ => by unfold Gap; decide

/-- `/:a/b` accepts `//b`. -/
theorem match_accepts_empty : (matchPath [47,58,97,47,98] [47,47,98]).1 = true ∧
    ¬List.Forall₂ Fits (segments [47,58,97,47,98]) (segments [47,47,98]) := by
  have hpattern : segments [47,58,97,47,98] = [[],[58,97],[98]] := by decide
  have hpath : segments [47,47,98] = [[],[],[98]] := by decide
  rw [hpattern,hpath]
  simp [matchPath,matchLoop,Fits,IsParam]

end TitanKV.Skynet.Router
