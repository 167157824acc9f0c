import TitanKV.Services.Rag.SideIndex

/-! Retrieval from one collection. The best vectors of the whole index are taken, four times as many as are wanted,
and those of the collection are picked out of them afterwards. The reranker is off. -/
namespace TitanKV.Services.Rag
open List
open Minikv (Bytes)

structure Retriever where
  topK : ℤ
  positive : 0<topK

def Retriever.new (topK : ℤ) : Retriever := if h : topK≤0 then ⟨5,by decide⟩ else ⟨topK,not_le.mp h⟩

structure RetrievalHit (S : Type*) where
  chunkID : Bytes
  score : S
  col : Bytes
  docID : Bytes
  seq : ℤ
  heading : Bytes
  text : Bytes
  deriving DecidableEq

inductive RetrieveFault
  | embed (message : String)
  | makeslice
  deriving DecidableEq,Repr

variable {F S : Type*} [LinearOrder S]

def collect (pre : Bytes) (topK : ℕ) : List (Hit S) → List (Hit S) → List (Hit S)
  | [],cands => cands
  | h::raw,cands =>
    if pre.isPrefixOf h.chunkID then
      if topK≤cands.length+1 then cands++[h] else collect pre topK raw (cands++[h])
    else collect pre topK raw cands

/-- The body of a chunk, looked up in minikv under the key that its id stands for. -/
def lookup (get : Bytes → Option ChunkRecord) (h : Hit S) : Option (RetrievalHit S) :=
  match parseChunkID h.chunkID with
  | none => none
  | some (col,docID,seq) => (get (chunkKey col docID seq)).map fun c =>
      ⟨h.chunkID,h.score,col,docID,seq,c.heading,c.text⟩

/-- The size of a `Hit` and what the runtime allocates at most on a 64-bit Linux. -/
def hitSize : ℤ := 24

def maxAlloc : ℤ := 2^48

def Retriever.wanted (r : Retriever) (topK : ℤ) : ℤ := if topK≤0 then r.topK else topK

/-- `make` panics for a capacity that cannot be allocated. -/
def Retriever.retrieve (r : Retriever) (score : List F → List F → S) (order : Directory Bytes (List F))
    (get : Bytes → Option ChunkRecord) (embedded : Except String (List F)) (col : Bytes) (topK : ℤ) :
    Except RetrieveFault (List (RetrievalHit S)) :=
  match embedded with
  | .error e => .error (.embed e)
  | .ok vec =>
    let raw := SideIndex.topK score order vec (goInt (r.wanted topK*4))
    if maxAlloc < hitSize*r.wanted topK then .error .makeslice
    else .ok ((collect (col++[slash]) (r.wanted topK).toNat raw []).filterMap (lookup get))

def scoredHits (score : List F → List F → S) (vec : List F) (order : Directory Bytes (List F)) : List (Hit S) :=
  order.map fun v => ⟨v.1,score vec v.2⟩

def Hit.InCollection (col : Bytes) (h : Hit S) : Bool := (col++[slash]).isPrefixOf h.chunkID

def RetrievalHit.hit (h : RetrievalHit S) : Hit S := ⟨h.chunkID,h.score⟩

/-- The best `k` vectors of the collection, best first. -/
def bestOf (score : List F → List F → S) (vec : List F) (idx : SideIndex F) (col : Bytes) (k : ℕ) : List (Hit S) :=
  (descending Hit.score ((scoredHits score vec idx.vectors).filter (Hit.InCollection col))).take k

/-- The retriever returns the best vectors of the collection, when it visits the index in this order. -/
def Retriever.Complete (r : Retriever) (score : List F → List F → S) (idx : SideIndex F)
    (order : Directory Bytes (List F)) (get : Bytes → Option ChunkRecord) (vec : List F) (col : Bytes) (topK : ℤ) :
    Prop :=
  ∃ hits, r.retrieve score order get (.ok vec) col topK = .ok hits ∧
    hits.map RetrievalHit.hit = bestOf score vec idx col (r.wanted topK).toNat

section Lemmas
variable {score : List F → List F → S} {order : Directory Bytes (List F)} {get : Bytes → Option ChunkRecord}
  {vec : List F} {col : Bytes}

lemma Retriever.wanted_pos (r : Retriever) (topK : ℤ) : 0 < r.wanted topK := by
  rw [Retriever.wanted]
  split
  · exact r.positive
  · omega

omit [LinearOrder S] in
lemma collect_eq {topK : ℕ} (raw cands : List (Hit S)) (h : cands.length<topK) :
    collect (col++[slash]) topK raw cands = cands ++ (raw.filter (Hit.InCollection col)).take
      (topK-cands.length) := by
  induction raw generalizing cands with
  | nil => simp [collect]
  | cons hit raw ih =>
    rw [collect,filter_cons]
    by_cases hmem : Hit.InCollection col hit = true
    · have hprefix : (col++[slash]).isPrefixOf hit.chunkID = true := hmem
      rw [if_pos hprefix,if_pos hmem]
      split
      · have hlast : topK-cands.length = 1 := by omega
        rw [hlast,take_succ_cons,take_zero]
      · have hmore : topK-cands.length = (topK-(cands++[hit]).length)+1 := by
          rw [length_append,length_singleton]
          omega
        rw [ih (cands++[hit]) (by rw [length_append,length_singleton]; omega),hmore,take_succ_cons,append_assoc,
          singleton_append]
    · have hprefix : ¬(col++[slash]).isPrefixOf hit.chunkID = true := hmem
      rw [if_neg hprefix,if_neg hmem]
      exact ih cands h

omit [LinearOrder S] in
lemma hit_of_lookup {h : Hit S} {hit : RetrievalHit S} (hlookup : lookup get h = some hit) : hit.hit = h := by
  rw [lookup] at hlookup
  split at hlookup
  · cases hlookup
  · obtain ⟨c,-,rfl⟩ := Option.map_eq_some_iff.mp hlookup
    rfl

omit [LinearOrder S] in
lemma map_hit_filterMap_lookup {hits : List (Hit S)} (hbodies : ∀ h ∈ hits, (lookup get h).isSome) :
    (hits.filterMap (lookup get)).map RetrievalHit.hit = hits := by
  induction hits with
  | nil => rfl
  | cons h hits ih =>
    obtain ⟨hit,hhit⟩ := Option.isSome_iff_exists.mp (hbodies h mem_cons_self)
    rw [filterMap_cons_some hhit,map_cons,hit_of_lookup hhit,ih fun h hh => hbodies h (mem_cons_of_mem _ hh)]

lemma topK_eq_take (hdistinct : ((scoredHits score vec order).map Hit.score).Nodup) {k : ℤ} (hk : 0<k) :
    SideIndex.topK score order vec k = (descending Hit.score (scoredHits score vec order)).take k.toNat := by
  rw [SideIndex.topK,if_neg (not_le.mpr hk)]
  exact Extraction.select_eq_take _ hdistinct k.toNat

/-- What the retriever returns as long as the slice can be allocated. -/
lemma Retriever.retrieve_hits (r : Retriever) {topK : ℤ}
    (hdistinct : ((scoredHits score vec order).map Hit.score).Nodup)
    (hbodies : ∀ h ∈ scoredHits score vec order, h.InCollection col → (lookup get h).isSome)
    (halloc : hitSize*r.wanted topK ≤ maxAlloc) :
    ∃ hits, r.retrieve score order get (.ok vec) col topK = .ok hits ∧
      hits.map RetrievalHit.hit =
        (((descending Hit.score (scoredHits score vec order)).take (4*(r.wanted topK).toNat)).filter
        (Hit.InCollection col)).take (r.wanted topK).toNat := by
  have hpos := r.wanted_pos topK
  have hsmall : r.wanted topK*4 < 2^63 := by
    rw [hitSize,maxAlloc] at halloc
    omega
  have htopK : SideIndex.topK score order vec (goInt (r.wanted topK*4)) =
      (descending Hit.score (scoredHits score vec order)).take (4*(r.wanted topK).toNat) := by
    rw [goInt_of_nonneg (by omega) hsmall,topK_eq_take hdistinct (by omega)]
    congr 1
    omega
  refine ⟨_,by rw [Retriever.retrieve,if_neg (not_lt.mpr halloc)],?_⟩
  rw [htopK,collect_eq _ _ (by simpa using hpos),nil_append,length_nil,Nat.sub_zero]
  refine map_hit_filterMap_lookup fun h hh => ?_
  obtain ⟨hh,hcol⟩ := mem_filter.mp (mem_of_mem_take hh)
  exact hbodies h ((descending_perm _ _).subset (mem_of_mem_take hh)) hcol

end Lemmas

/-- With distinct scores and all bodies present, the retriever returns the best vectors of a collection exactly if
the slice can be allocated and enough of them are among the best vectors of the whole index, four times as many as
are wanted. -/
theorem Retriever.complete_iff (r : Retriever) (score : List F → List F → S) {idx : SideIndex F}
    {order : Directory Bytes (List F)} (horder : List.Perm order idx.vectors) (get : Bytes → Option ChunkRecord)
    (vec : List F) (col : Bytes) (topK : ℤ) (hdistinct : ((scoredHits score vec idx.vectors).map Hit.score).Nodup)
    (hbodies : ∀ h ∈ scoredHits score vec idx.vectors, h.InCollection col → (lookup get h).isSome) :
    r.Complete score idx order get vec col topK ↔
      hitSize*r.wanted topK ≤ maxAlloc ∧
        min (r.wanted topK).toNat ((scoredHits score vec idx.vectors).filter (Hit.InCollection col)).length ≤
          (((descending Hit.score (scoredHits score vec idx.vectors)).take (4*(r.wanted topK).toNat)).filter
            (Hit.InCollection col)).length := by
  have hperm : List.Perm (scoredHits score vec order) (scoredHits score vec idx.vectors) := horder.map _
  by_cases halloc : hitSize*r.wanted topK ≤ maxAlloc
  · obtain ⟨hits,hretrieve,hhits⟩ := r.retrieve_hits ((hperm.map _).nodup_iff.mpr hdistinct)
      (fun h hh => hbodies h (hperm.subset hh)) halloc
    have hcomplete : r.Complete score idx order get vec col topK ↔
        hits.map RetrievalHit.hit = bestOf score vec idx col (r.wanted topK).toNat := by
      rw [Retriever.Complete,hretrieve]
      exact ⟨fun ⟨_,heq,h⟩ => Except.ok.inj heq ▸ h,fun h => ⟨hits,rfl,h⟩⟩
    have hlength : ((descending Hit.score (scoredHits score vec idx.vectors)).filter (Hit.InCollection col)).length =
        ((scoredHits score vec idx.vectors).filter (Hit.InCollection col)).length :=
          ((descending_perm _ _).filter _).length_eq
    rw [hcomplete,hhits,bestOf,← filter_descending hdistinct,
      descending_eq_of_perm ((hperm.map _).nodup_iff.mpr hdistinct) hperm,take_filter_take_eq_iff,hlength]
    exact ⟨fun h => ⟨halloc,h⟩,And.right⟩
  · have hfault : r.retrieve score order get (.ok vec) col topK = .error .makeslice := by
      rw [Retriever.retrieve,if_pos (not_le.mp halloc)]
    constructor
    · rintro ⟨hits,hretrieve,-⟩
      rw [hfault] at hretrieve
      cases hretrieve
    · rintro ⟨h,-⟩
      exact absurd h halloc

def entryScore (_ vec : List ℕ) : ℕ := vec.headD 0

def chunkOf (col : Char) (seq : ℕ) : Bytes := chunkID (Minikv.ascii [col]) (Minikv.ascii ['d']) seq

def loneIndex : SideIndex ℕ := ⟨1,[(chunkOf 'a' 0,[1])],by decide +kernel⟩

def crowdedIndex : SideIndex ℕ :=
  ⟨1,[(chunkOf 'a' 0,[1]),(chunkOf 'b' 0,[2]),(chunkOf 'b' 1,[3]),(chunkOf 'b' 2,[4]),
    (chunkOf 'b' 3,[5])],by decide +kernel⟩

def anyBody (_ : Bytes) : Option ChunkRecord := some ⟨[],[],[],0,[],[]⟩

/-- The best two of four, behind which there is another collection. -/
theorem complete_crowdedIndex :
    (Retriever.new 5).Complete entryScore crowdedIndex crowdedIndex.vectors anyBody [0] (Minikv.ascii ['b']) 2 := by
  refine (Retriever.complete_iff (Retriever.new 5) entryScore (Perm.refl _) anyBody [0] (Minikv.ascii ['b']) 2
    (by decide +kernel) (by decide +kernel)).mpr ⟨by decide,?_⟩
  rw [take_of_length_le (by rw [(descending_perm _ _).length_eq]; decide),((descending_perm _ _).filter _).length_eq]
  exact min_le_right _ _

/-- Four better vectors of another collection crowd the only vector of the collection out. -/
theorem retrieve_crowdedIndex :
    ((scoredHits entryScore [0] crowdedIndex.vectors).map Hit.score).Nodup ∧
      (scoredHits entryScore [0] crowdedIndex.vectors).filter (Hit.InCollection (Minikv.ascii ['a'])) =
        (scoredHits entryScore [0] loneIndex.vectors).filter (Hit.InCollection (Minikv.ascii ['a'])) ∧
      (Retriever.new 5).retrieve entryScore crowdedIndex.vectors anyBody (.ok [0]) (Minikv.ascii ['a']) 1 = .ok [] ∧
      (Retriever.new 5).retrieve entryScore loneIndex.vectors anyBody (.ok [0]) (Minikv.ascii ['a']) 1 =
        .ok [⟨chunkOf 'a' 0,1,Minikv.ascii ['a'],Minikv.ascii ['d'],0,[],[]⟩] := by
  decide +kernel

end TitanKV.Services.Rag
