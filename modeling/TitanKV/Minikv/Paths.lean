import TitanKV.Minikv.Version

/-! The path strings of SSTables. `flushOne` and `mergeLevelFiles` build them from the path
the database was opened with, and `addLevelFile` reads the file number back from them. -/
namespace TitanKV.Minikv
open List

/-- A text of ASCII characters as the bytes of a `std::string`. -/
def ascii (cs : List Char) : Bytes := cs.map fun c => UInt8.ofNat c.toNat

def decimal (n : ℕ) : Bytes := ascii (Nat.toDigits 10 n)

def levelDir (dbPath : Bytes) (level : ℕ) : Bytes :=
  dbPath ++ ascii ['/','l','e','v','e','l','-'] ++ decimal level

def tablePath (dbPath : Bytes) (p : TablePath) : Bytes :=
  levelDir dbPath p.level ++ ascii ['/'] ++ decimal p.number ++ ascii ['.','s','s','t']

lemma isDigit_iff {c : Char} : c.isDigit = true ↔ 48≤c.toNat ∧ c.toNat≤57 := by
  simp only [Char.isDigit,Bool.and_eq_true,decide_eq_true_eq]
  rfl

lemma mem_decimal {n : ℕ} {b : UInt8} (h : b ∈ decimal n) : 48≤b.toNat ∧ b.toNat≤57 := by
  obtain ⟨c,hc,rfl⟩ := mem_map.mp h
  have hdigit := isDigit_iff.mp (Nat.isDigit_of_mem_toDigits (by norm_num) (by norm_num) hc)
  rw [UInt8.toNat_ofNat']
  omega

lemma foldl_ascii {cs : List Char} (h : ∀ c ∈ cs, c.isDigit = true) (v : ℕ) :
    (ascii cs).foldl (fun v b => v*10 + (b.toNat-48)) v = Nat.ofDigitChars 10 cs v := by
  induction cs generalizing v with
  | nil => rfl
  | cons c cs ih =>
    have hc := isDigit_iff.mp (h c (by simp))
    have hbyte : (UInt8.ofNat c.toNat).toNat = c.toNat := by
      rw [UInt8.toNat_ofNat']
      omega
    have hzero : '0'.toNat = 48 := rfl
    rw [ascii,map_cons,foldl_cons,← ascii,ih fun d hd => h d (by simp [hd])]
    rw [Nat.ofDigitChars_cons,hbyte,hzero,Nat.mul_comm]

lemma foldl_decimal (n : ℕ) : (decimal n).foldl (fun v b => v*10 + (b.toNat-48)) 0 = n := by
  rw [decimal,foldl_ascii fun c hc => Nat.isDigit_of_mem_toDigits (by norm_num) (by norm_num) hc]
  exact Nat.ofDigitChars_ten_toDigits

theorem decimal_injective : Function.Injective decimal := by
  intro m n h
  rw [← foldl_decimal m,h,foldl_decimal]

lemma not_mem_decimal {n : ℕ} {b : UInt8} (h : b.toNat<48) : b ∉ decimal n := by
  intro hb
  have := (mem_decimal hb).1
  omega

lemma split_first {a a' d d' : Bytes} {c : UInt8} (ha : c ∉ a) (ha' : c ∉ a')
    (h : a ++ c::d = a' ++ c::d') : a = a' ∧ d = d' := by
  induction a generalizing a' with
  | nil =>
    cases a' with
    | nil => exact ⟨rfl,(cons.inj h).2⟩
    | cons b a' => exact (ha' (by simp [(cons.inj h).1])).elim
  | cons b a ih =>
    cases a' with
    | nil => exact (ha (by simp [(cons.inj h).1])).elim
    | cons b' a' =>
      obtain ⟨rfl,ht⟩ := cons.inj h
      obtain ⟨rfl,hd⟩ := ih (fun hm => ha (by simp [hm])) (fun hm => ha' (by simp [hm])) ht
      exact ⟨rfl,hd⟩

lemma split_last {a a' d d' : Bytes} {c : UInt8} (hd : c ∉ d) (hd' : c ∉ d')
    (h : a++[c]++d = a'++[c]++d') : a = a' ∧ d = d' := by
  have hrev := congrArg List.reverse h
  simp only [reverse_append,reverse_singleton,singleton_append] at hrev
  obtain ⟨hd,ha⟩ := split_first (fun hm => hd (mem_reverse.mp hm))
    (fun hm => hd' (mem_reverse.mp hm)) hrev
  exact ⟨reverse_injective ha,reverse_injective hd⟩

theorem tablePath_inj {db db' : Bytes} {p p' : TablePath} :
    tablePath db p = tablePath db' p' ↔ db = db' ∧ p = p' := by
  constructor
  · intro h
    have hslash : (47 : UInt8).toNat<48 := by decide
    have hdash : (45 : UInt8).toNat<48 := by decide
    have hname := append_cancel_right h
    obtain ⟨hdir,hnumber⟩ := split_last (not_mem_decimal hslash) (not_mem_decimal hslash) hname
    have hdir' : (db ++ ascii ['/','l','e','v','e','l'])++[45] ++ decimal p.level =
        (db' ++ ascii ['/','l','e','v','e','l'])++[45] ++ decimal p'.level := by
      simpa [levelDir,ascii] using hdir
    obtain ⟨hdb,hlevel⟩ := split_last (not_mem_decimal hdash) (not_mem_decimal hdash) hdir'
    refine ⟨append_cancel_right hdb,?_⟩
    have hp : p = ⟨p'.level,p'.number⟩ := by rw [← decimal_injective hlevel,← decimal_injective hnumber]
    exact hp
  · rintro ⟨rfl,rfl⟩
    rfl

def basename (path : Bytes) : Bytes := (path.reverse.takeWhile (· ≠ 47)).reverse

/-- The number in the name of a file, as `addLevelFile` parses it into a `uint64_t`; no
number if the name has no dot or a character before the dot is not a digit. -/
def fileNumberOf (path : Bytes) : Option ℕ :=
  let base := basename path
  let stem := base.takeWhile (· ≠ 46)
  if stem.length<base.length ∧ stem ≠ [] ∧ stem.all (fun b => 48≤b.toNat ∧ b.toNat≤57) then
    some (stem.foldl (fun v b => (v*10 + (b.toNat-48)) % 2^64) 0)
  else none

lemma fileNumberOf_lt {path : Bytes} {n : ℕ} (h : fileNumberOf path = some n) : n<2^64 := by
  simp only [fileNumberOf] at h
  split at h
  · rename_i hstem
    obtain rfl := Option.some.inj h
    obtain ⟨stem,b,hlast⟩ := (eq_nil_or_concat' _).resolve_left hstem.2.1
    rw [hlast,foldl_append]
    exact Nat.mod_lt _ (by norm_num)
  · cases h

lemma basename_append {dir name : Bytes} (h : (47 : UInt8) ∉ name) : basename (dir++[47]++name) = name := by
  have hall : ∀ b ∈ name.reverse, decide (b ≠ 47) = true := by
    intro b hb
    rw [decide_eq_true_eq]
    rintro rfl
    exact h (mem_reverse.mp hb)
  rw [basename,reverse_append,takeWhile_append_of_pos hall]
  simp

lemma foldl_wrapped (bs : Bytes) (v : ℕ) :
    bs.foldl (fun v b => (v*10 + (b.toNat-48)) % 2^64) (v % 2^64) =
      bs.foldl (fun v b => v*10 + (b.toNat-48)) v % 2^64 := by
  induction bs generalizing v with
  | nil => rfl
  | cons b bs ih =>
    rw [foldl_cons,foldl_cons,← ih]
    congr 1
    omega

/-- A file that was named after its number is recorded under it. -/
theorem fileNumberOf_tablePath (db : Bytes) {p : TablePath} (h : p.number<2^64) :
    fileNumberOf (tablePath db p) = some p.number := by
  have hname : (47 : UInt8) ∉ decimal p.number ++ ascii ['.','s','s','t'] := by
    intro hm
    rcases mem_append.mp hm with hm | hm
    · exact not_mem_decimal (by decide) hm
    · exact absurd hm (by decide)
  have hpath : tablePath db p =
      levelDir db p.level ++ [47]++(decimal p.number ++ ascii ['.','s','s','t']) := by
    rw [tablePath,append_assoc _ (decimal p.number)]
    rfl
  have hstem : (decimal p.number ++ ascii ['.','s','s','t']).takeWhile (· ≠ 46) = decimal p.number := by
    have hall : ∀ b ∈ decimal p.number, decide (b ≠ 46) = true := by
      intro b hb
      rw [decide_eq_true_eq]
      rintro rfl
      exact not_mem_decimal (by decide) hb
    rw [takeWhile_append_of_pos hall]
    simp [ascii]
  have hne : decimal p.number ≠ [] := by
    simp [decimal,ascii,Nat.toDigits_ne_nil]
  have hvalue := foldl_wrapped (decimal p.number) 0
  rw [foldl_decimal,Nat.mod_eq_of_lt h] at hvalue
  rw [fileNumberOf,hpath,basename_append hname]
  have hdigits : (decimal p.number).all (fun b => 48≤b.toNat ∧ b.toNat≤57) = true := by
    rw [all_eq_true]
    exact fun b hb => decide_eq_true (mem_decimal hb)
  rw [hstem,if_pos ⟨by simp [ascii],hne,hdigits⟩]
  exact congrArg some hvalue

end TitanKV.Minikv
