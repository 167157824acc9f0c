import TitanKV.Minikv.MemTable

/-! What the deduplicating loops keep of entries that come in the order of their user keys: the first entry of every
user key, unless that is a tombstone or the key is the one that the loop started from. -/
namespace TitanKV.Minikv
open List

section Order
variable {a b c : Bytes}

lemma compare_ne_gt_of_eq (h : a = b) : compare a b ≠ .gt := by
  rw [h,Std.ReflOrd.compare_self]
  exact nofun

lemma eq_of_compare_ne_gt (hab : compare a b ≠ .gt) (hba : compare b a ≠ .gt) : a = b := by
  cases hc : compare a b with
  | eq => exact Std.LawfulEqOrd.eq_of_compare hc
  | gt => exact (hab hc).elim
  | lt => exact (hba (Std.OrientedCmp.gt_of_lt hc)).elim

lemma compare_lt_of_ne_gt (hab : compare a b ≠ .gt) (hne : a ≠ b) : compare a b = .lt := by
  cases hc : compare a b with
  | lt => rfl
  | eq => exact (hne (Std.LawfulEqOrd.eq_of_compare hc)).elim
  | gt => exact (hab hc).elim

/-- The empty key, which the loops start from, comes before all others. -/
lemma compare_nil_ne_gt (k : Bytes) : compare [] k ≠ .gt := by
  cases k <;> simp [compare,List.compareLex]

end Order

section Loop
variable {ε : Type*} (userKey : ε → Bytes) (isDeletion : ε → Bool)

/-- The deduplication loop of `mergeLevelFiles`; `last` is `last_user`, at first the empty
string, which is also a user key. -/
def keepNewest : Bytes → List ε → List ε
  | _,[] => []
  | last,kv::rest =>
    if userKey kv = last then keepNewest last rest
    else if isDeletion kv then keepNewest (userKey kv) rest
    else kv::keepNewest (userKey kv) rest

lemma keepNewest_sublist (last : Bytes) (es : List ε) :
    (keepNewest userKey isDeletion last es).Sublist es := by
  induction es generalizing last with
  | nil => exact Sublist.slnil
  | cons kv rest ih =>
    rw [keepNewest]
    split
    · exact (ih last).cons kv
    · split
      · exact (ih _).cons kv
      · exact (ih _).cons_cons kv

/-- The tombstones may be taken out behind the loop. -/
lemma keepNewest_eq_filter (last : Bytes) (es : List ε) : keepNewest userKey isDeletion last es =
    (keepNewest userKey (fun _ => false) last es).filter (!isDeletion ·) := by
  induction es generalizing last with
  | nil => rfl
  | cons e es ih =>
    rw [keepNewest,keepNewest]
    split
    · exact ih last
    · rw [if_neg Bool.false_ne_true,filter_cons]
      cases isDeletion e with
      | true => exact ih _
      | false => exact congrArg (e::·) (ih _)

end Loop

section Dedup
variable {ε : Type*} {userKey : ε → Bytes} {isDeletion : ε → Bool} {last : Bytes} {es : List ε}

/-- The entries come in the order of their user keys. -/
abbrev KeysAscend (userKey : ε → Bytes) (es : List ε) : Prop :=
  es.Pairwise fun a b => compare (userKey a) (userKey b) ≠ .gt

lemma userKey_ne_of_mem_keepNewest (hsorted : KeysAscend userKey es)
    (hlast : ∀ e ∈ es, compare last (userKey e) ≠ .gt) {e : ε} (he : e ∈ keepNewest userKey isDeletion last es) :
    userKey e ≠ last := by
  induction es generalizing last with
  | nil => cases he
  | cons x es ih =>
    obtain ⟨hx,hes⟩ := pairwise_cons.mp hsorted
    rw [keepNewest] at he
    split at he
    · exact ih hes (fun y hy => hlast y (mem_cons_of_mem x hy)) he
    · rename_i hne
      -- behind another key the starting key does not come up any more
      have hgone : ∀ y ∈ es, userKey y ≠ last := by
        rintro y hy rfl
        exact hne (eq_of_compare_ne_gt (hx y hy) (hlast x mem_cons_self))
      split at he
      · exact hgone e ((keepNewest_sublist _ _ _ _).subset he)
      · rcases mem_cons.mp he with rfl | he
        · exact hne
        · exact hgone e ((keepNewest_sublist _ _ _ _).subset he)

lemma pairwise_keepNewest (last : Bytes) (hsorted : KeysAscend userKey es) :
    (keepNewest userKey isDeletion last es).Pairwise fun a b => compare (userKey a) (userKey b) = .lt := by
  induction es generalizing last with
  | nil => exact Pairwise.nil
  | cons x es ih =>
    obtain ⟨hx,hes⟩ := pairwise_cons.mp hsorted
    rw [keepNewest]
    split
    · exact ih last hes
    · split
      · exact ih _ hes
      · refine pairwise_cons.mpr ⟨?_,ih _ hes⟩
        intro y hy
        have hne := userKey_ne_of_mem_keepNewest hes hx hy
        exact compare_lt_of_ne_gt (hx y ((keepNewest_sublist _ _ _ _).subset hy)) hne.symm

/-- What the loop keeps of a user key: its first version, unless that is a tombstone or the key is the one the loop
started from. -/
theorem find?_keepNewest (hsorted : KeysAscend userKey es) (hlast : ∀ e ∈ es, compare last (userKey e) ≠ .gt)
    (k : Bytes) :
    (keepNewest userKey isDeletion last es).find? (fun e => userKey e = k) =
      if k = last then none else (es.find? fun e => userKey e = k).filter fun e => !isDeletion e := by
  induction es generalizing last with
  | nil => simp [keepNewest]
  | cons x es ih =>
    obtain ⟨hx,hes⟩ := pairwise_cons.mp hsorted
    by_cases hk : k = last
    · rw [if_pos hk,find?_eq_none]
      intro e he
      simpa [hk] using userKey_ne_of_mem_keepNewest hsorted hlast he
    · rw [if_neg hk,keepNewest]
      have htail := ih hes hx
      split
      · rename_i hxl
        have hxk : userKey x ≠ k := fun hxk => hk (hxk.symm.trans hxl)
        rw [ih hes fun e he => hlast e (mem_cons_of_mem x he),if_neg hk,find?_cons_of_neg (by simpa using hxk)]
      · by_cases hxk : userKey x = k
        · split
          · rename_i hd
            rw [htail]
            simp [hxk,hd,Option.filter]
          · rename_i hd
            simp [hxk,hd,Option.filter]
        · rw [if_neg (Ne.symm hxk)] at htail
          split
          · rw [htail]
            simp [hxk]
          · simpa [hxk] using htail

lemma mem_keepNewest_iff (hsorted : KeysAscend userKey es) (hlast : ∀ e ∈ es, compare last (userKey e) ≠ .gt)
    {e : ε} :
    e ∈ keepNewest userKey isDeletion last es ↔
      userKey e ≠ last ∧ es.find? (fun x => userKey x = userKey e) = some e ∧ isDeletion e = false := by
  have hfirst : e ∈ keepNewest userKey isDeletion last es ↔
      (keepNewest userKey isDeletion last es).find? (fun x => userKey x = userKey e) = some e := by
    refine ⟨fun he => ?_,mem_of_find?_eq_some⟩
    obtain ⟨before,after,heq⟩ := append_of_mem he
    have hdistinct := @pairwise_keepNewest _ userKey isDeletion es last hsorted
    rw [heq] at hdistinct ⊢
    rw [find?_append,find?_eq_none.mpr,Option.none_or,find?_cons_of_pos (by simp)]
    intro d hd
    have hlt := (pairwise_append.mp hdistinct).2.2 d hd e mem_cons_self
    rw [decide_eq_true_eq]
    exact ne_of_compare_lt hlt
  rw [hfirst,find?_keepNewest hsorted hlast]
  by_cases hkey : userKey e = last
  · simp [hkey]
  · simp [hkey,Option.filter_eq_some_iff]

/-- A loop keeps the first entry of every key, tombstones apart, exactly if the first entry of the empty key is a
tombstone where there is one. -/
theorem keepNewest_right_iff (hsorted : KeysAscend userKey es) :
    (∀ e, e ∈ keepNewest userKey isDeletion [] es ↔
      es.find? (fun x => userKey x = userKey e) = some e ∧ isDeletion e = false) ↔
      ∀ e, es.find? (fun x => userKey x = []) = some e → isDeletion e = true := by
  constructor
  · intro h e hfind
    have hkey : userKey e = [] := by simpa using find?_some hfind
    by_contra hlive
    have hmem := (h e).mpr ⟨by rwa [hkey],by simpa using hlive⟩
    exact ((mem_keepNewest_iff hsorted fun x _ => compare_nil_ne_gt _).mp hmem).1 hkey
  · intro h e
    rw [mem_keepNewest_iff hsorted fun x _ => compare_nil_ne_gt _]
    refine ⟨And.right,?_⟩
    rintro ⟨hfind,hlive⟩
    refine ⟨?_,hfind,hlive⟩
    intro hnil
    rw [hnil] at hfind
    rw [h e hfind] at hlive
    cases hlive

end Dedup
end TitanKV.Minikv
