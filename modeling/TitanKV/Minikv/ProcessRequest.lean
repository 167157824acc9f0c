import TitanKV.Minikv.Server

/-! `Server::processRequest` over the interface of the store. -/
namespace TitanKV.Minikv
open List RequestHeader Except

/-- The operations of the store that a server calls. -/
structure DB (Q : Heap) (σ : Type*) where
  put : Bytes → Bytes → σ → Status × σ
  get : Bytes → σ → Except Status Bytes
  del : Bytes → σ → Status × σ
  write : WriteBatch → σ → Status × σ
  newIterator : σ → MergingIterator Q

namespace Server
variable {Q : Heap} {σ : Type*}

def BadBatch : Response := ⟨.error,ascii "bad batch".toList⟩
def TruncatedBatch : Response := ⟨.error,ascii "truncated batch".toList⟩
def TruncatedKey : Response := ⟨.error,ascii "truncated key".toList⟩
def TruncatedVal : Response := ⟨.error,ascii "truncated val".toList⟩
def BadBatchOp : Response := ⟨.error,ascii "bad batch op".toList⟩

def written (status : Status) : Response :=
  if status.ok then ⟨.ok,[]⟩ else ⟨.error,ascii status.msg.toList⟩

/-- One iteration of the loop of the `kBatch` branch, on the bytes between `p` and `limit`: the operation that it
    adds to the batch, and the bytes it leaves. -/
def parseOp (p : Bytes) : Except Response (BatchOp × Bytes) :=
  if p.length<1+4 then .error TruncatedBatch
  else
    let op := p.headD 0
    let klen := decodeFixed32 (p.drop 1)
    let p := (p.drop 1).drop 4
    if p.length<klen+4 then .error TruncatedKey
    else
      let k := p.take klen
      let vlen := decodeFixed32 (p.drop klen)
      let p := (p.drop klen).drop 4
      if p.length<vlen then .error TruncatedVal
      else
        let v := p.take vlen
        if op = BatchOpType.put.code then .ok (⟨.put,k,v⟩,p.drop vlen)
        else if op = BatchOpType.delete.code then .ok (⟨.delete,k,[]⟩,p.drop vlen)
        else .error BadBatchOp

def parseOps : ℕ → Bytes → WriteBatch → Except Response WriteBatch
  | 0,_,batch => .ok batch
  | count+1,p,batch =>
    match parseOp p with
    | .error r => .error r
    | .ok (op,p) => parseOps count p (batch++[op])

def parseBatch (val : Bytes) : Except Response WriteBatch :=
  if val.length<4 then .error BadBatch else parseOps (decodeFixed32 val) (val.drop 4) []

def kBatch (db : DB Q σ) (val : Bytes) (s : σ) : Response × σ :=
  match parseBatch val with
  | .error r => (r,s)
  | .ok batch => (written (db.write batch s).1,(db.write batch s).2)

/-- The loop of the `kDeleteRange` branch: a deletion for every user key of the range that the iterator shows. -/
def deleteRangeLoop (start stop : Bytes) : ℕ → MergingIterator Q → Bytes → WriteBatch → Option WriteBatch
  | 0,_,_,_ => none
  | fuel+1,it,lastUser,batch =>
    if it.valid = false then some batch
    else if it.key.length<8 then deleteRangeLoop start stop fuel it.next lastUser batch
    else
      let uks := internalKeyUserKey it.key
      if start ≠ [] ∧ compare uks start = .lt then deleteRangeLoop start stop fuel it.next lastUser batch
      else if stop ≠ [] ∧ compare uks stop ≠ .lt then some batch
      else if uks = lastUser then deleteRangeLoop start stop fuel it.next lastUser batch
      else deleteRangeLoop start stop fuel it.next uks (batch++[⟨.delete,uks,[]⟩])

def deleteRangeBatch (it : MergingIterator Q) (start stop : Bytes) : Option WriteBatch :=
  deleteRangeLoop start stop (it.seekToFirst.remaining+1) it.seekToFirst [] []

def kDeleteRange (db : DB Q σ) (start stop : Bytes) (s : σ) : Option (Response × σ) :=
  (deleteRangeBatch (db.newIterator s) start stop).map fun batch =>
    if batch.length = 0 then (⟨.ok,[]⟩,s) else (written (db.write batch s).1,(db.write batch s).2)

/-- `processRequest`, on the whole frames that a connection hands over. The loops over an iterator have fuel for the
    entries that it has. -/
def processRequest (db : DB Q σ) (rawData : Bytes) (s : σ) : Option (Bytes × σ) :=
  if rawData.length<size then some (encodeResponse ⟨.error,[]⟩,s)
  else
    let hdr := ofBytes rawData
    if hdr.magic ≠ kProtocolMagic then some (encodeResponse ⟨.error,ascii "bad magic".toList⟩,s)
    else
      let key := (rawData.drop size).take hdr.keyLen
      let val := (rawData.drop (size+hdr.keyLen)).take hdr.valLen
      if hdr.cmd = Cmd.put.code then
        some (encodeResponse (written (db.put key val s).1),(db.put key val s).2)
      else if hdr.cmd = Cmd.get.code then
        match db.get key s with
        | .ok value => some (encodeResponse ⟨.ok,value⟩,s)
        | .error _ => some (encodeResponse ⟨.notFound,[]⟩,s)
      else if hdr.cmd = Cmd.del.code then
        some (encodeResponse (written (db.del key s).1),(db.del key s).2)
      else if hdr.cmd = Cmd.scan.code then
        let it := (db.newIterator s).seekToFirst
        (scanLoop key val (it.remaining+1) it [] []).map fun r =>
          if r.2.statusOf.ok then (encodeResponse ⟨.ok,encodeScanPayload r.1⟩,s)
          else (encodeResponse ⟨.error,ascii r.2.statusOf.msg.toList⟩,s)
      else if hdr.cmd = Cmd.batch.code then
        some ((kBatch db val s).map encodeResponse id)
      else if hdr.cmd = Cmd.deleteRange.code then
        (kDeleteRange db key val s).map fun r => r.map encodeResponse id
      else some (encodeResponse ⟨.error,ascii "Unknown command".toList⟩,s)

end Server

/-- The store itself behind the interface; `put` and `del` are batches of one operation. -/
def DBImpl.asDB (Q : Heap) : DB Q DBImpl where
  put key value db := (.Ok,db.doWriteGroup [[⟨.put,key,value⟩]])
  get key db := db.get key
  del key db := (.Ok,db.doWriteGroup [[⟨.delete,key,[]⟩]])
  write batch db := (.Ok,db.doWriteGroup [batch])
  newIterator db := db.newIterator Q

namespace Server
variable {Q : Heap} {σ : Type*}

lemma processRequest_batch (db : DB Q σ) {key val : Bytes} (hkey : key.length<2^32) (hval : val.length<2^32)
    (s : σ) : processRequest db (encodeRequest Cmd.batch.code key val) s =
      some ((kBatch db val s).map encodeResponse id) := by
  have hlen := length_encodeRequest Cmd.batch.code key val
  have hhdr := ofBytes_encodeRequest Cmd.batch.code hkey hval []
  have hdrop : (encodeRequest Cmd.batch.code key val).drop (size+key.length) = val := by
    rw [encodeRequest,← drop_drop,append_assoc,drop_left' (length_encode _),drop_left]
  rw [append_nil] at hhdr
  rw [processRequest,if_neg (by omega),hhdr]
  dsimp only
  rw [hdrop,take_length,if_neg (by simp),if_neg (by decide),if_neg (by decide),if_neg (by decide),
    if_neg (by decide),if_pos rfl]

/-- How an operation stands in a payload; a deletion has a value too. -/
def wireOp (op : BatchOp) : Bytes :=
  op.type.code::(encodeFixed32 op.key.length ++ op.key ++ encodeFixed32 op.value.length ++ op.value)

def batched (op : BatchOp) : BatchOp :=
  match op.type with
  | .put => op
  | .delete => ⟨.delete,op.key,[]⟩

lemma parseOp_wireOp {op : BatchOp} (h : op.Fits) (rest : Bytes) :
    parseOp (wireOp op ++ rest) = .ok (batched op,rest) := by
  obtain ⟨hkey,hvalue⟩ := h
  have hwire : wireOp op ++ rest = op.type.code::(encodeFixed32 op.key.length ++
      (op.key++(encodeFixed32 op.value.length ++ (op.value++rest)))) := by
    simp [wireOp]
  rw [hwire,parseOp,if_neg (by simp)]
  simp only [headD_cons,drop_succ_cons,drop_zero,decodeFixed32_encode,Nat.mod_eq_of_lt hkey,
    drop_left' (length_encodeFixed32 _),take_left,drop_left,Nat.mod_eq_of_lt hvalue]
  rw [if_neg (by simp),if_neg (by simp)]
  obtain ⟨type,key,value⟩ := op
  cases type with
  | put | delete => rfl

lemma exists_of_parseOp {p rest : Bytes} {op : BatchOp} (h : parseOp p = .ok (op,rest)) :
    ∃ op' : BatchOp, op'.Fits ∧ op = batched op' ∧ p = wireOp op' ++ rest := by
  rw [parseOp] at h
  split at h
  · cases h
  rename_i hshort
  dsimp only at h
  split at h
  · cases h
  rename_i hkey
  split at h
  · cases h
  rename_i hval
  obtain ⟨c,q,rfl⟩ : ∃ c q, p = c::q := by
    cases p with
    | nil => exact absurd (Nat.zero_lt_succ _) hshort
    | cons c q => exact ⟨c,q,rfl⟩
  simp only [headD_cons,drop_succ_cons,drop_zero] at h hkey hval
  generalize hklen : decodeFixed32 q = klen at h hkey hval
  generalize hr : q.drop 4 = r at h hkey hval
  generalize hvlen : decodeFixed32 (r.drop klen) = vlen at h hval
  generalize ht : (r.drop klen).drop 4 = t at h hval
  have hfits : ∀ type : BatchOpType, (BatchOp.mk type (r.take klen) (t.take vlen)).Fits := by
    intro type
    have hk := decodeFixed32_lt q
    have hv := decodeFixed32_lt (r.drop klen)
    constructor
    · rw [length_take]
      omega
    · rw [length_take]
      omega
  have hwire : ∀ type : BatchOpType, c = type.code →
      c::q = wireOp ⟨type,r.take klen,t.take vlen⟩ ++ t.drop vlen := by
    intro type hc
    have hq : q = encodeFixed32 klen ++ r := by
      rw [← hklen,← hr]
      exact eq_encodeFixed32_append (by simp at hshort; omega)
    have hrest : r.drop klen = encodeFixed32 vlen ++ t := by
      rw [← hvlen,← ht]
      exact eq_encodeFixed32_append (by rw [length_drop]; omega)
    have hklength : (r.take klen).length = klen := length_take_of_le (by omega)
    have hvlength : (t.take vlen).length = vlen := length_take_of_le (by omega)
    calc c::q
        = c::(encodeFixed32 klen ++ (r.take klen ++ r.drop klen)) := by rw [hq,take_append_drop]
      _ = c::(encodeFixed32 klen ++ (r.take klen ++ (encodeFixed32 vlen ++ (t.take vlen ++ t.drop vlen)))) := by
          rw [hrest,take_append_drop]
      _ = wireOp ⟨type,r.take klen,t.take vlen⟩ ++ t.drop vlen := by
          rw [wireOp,hklength,hvlength,hc]
          simp
  split at h
  · rename_i hc
    obtain ⟨rfl,rfl⟩ := Prod.mk.inj (ok.inj h)
    exact ⟨_,hfits .put,rfl,hwire .put hc⟩
  · split at h
    · rename_i hc
      obtain ⟨rfl,rfl⟩ := Prod.mk.inj (ok.inj h)
      exact ⟨_,hfits .delete,rfl,hwire .delete hc⟩
    · cases h

variable {p : Bytes}

/-- The loop reads the number of operations that it is told, each of them whole. -/
theorem parseOps_eq_ok {count : ℕ} {batch result : WriteBatch} :
    parseOps count p batch = .ok result ↔ ∃ ops : List BatchOp, ops.length = count ∧ (∀ op ∈ ops, op.Fits) ∧
      (∃ rest, p = ops.flatMap wireOp ++ rest) ∧ result = batch ++ ops.map batched := by
  induction count generalizing p batch with
  | zero =>
    rw [parseOps]
    constructor
    · intro h
      exact ⟨[],rfl,nofun,⟨p,rfl⟩,by rw [← ok.inj h,map_nil,append_nil]⟩
    · rintro ⟨ops,hlen,-,-,rfl⟩
      rw [length_eq_zero_iff.mp hlen,map_nil,append_nil]
  | succ count ih =>
    rw [parseOps]
    constructor
    · intro h
      split at h
      · cases h
      · rename_i op rest hop
        obtain ⟨op',hfits,rfl,rfl⟩ := exists_of_parseOp hop
        obtain ⟨ops,hlen,hall,⟨rest',rfl⟩,rfl⟩ := ih.mp h
        refine ⟨op'::ops,by rw [length_cons,hlen],?_,⟨rest',?_⟩,?_⟩
        · exact forall_mem_cons.mpr ⟨hfits,hall⟩
        · rw [flatMap_cons,append_assoc]
        · rw [map_cons,append_assoc]
          rfl
    · rintro ⟨ops,hlen,hall,⟨rest,rfl⟩,rfl⟩
      cases ops with
      | nil => cases hlen
      | cons op ops =>
        obtain ⟨hfits,hall⟩ := forall_mem_cons.mp hall
        rw [flatMap_cons,append_assoc,parseOp_wireOp hfits]
        refine ih.mpr ⟨ops,Nat.succ.inj hlen,hall,⟨rest,rfl⟩,?_⟩
        rw [map_cons,append_assoc]
        rfl

/-- The payload declares a number of operations and holds that many, each with the bytes that its lengths announce;
    the batch has their effect. -/
def Declares (val : Bytes) (batch : WriteBatch) : Prop :=
  ∃ ops : List BatchOp, ops.length<2^32 ∧ (∀ op ∈ ops, op.Fits) ∧
    (∃ rest, val = encodeFixed32 ops.length ++ ops.flatMap wireOp ++ rest) ∧ batch = ops.map batched

theorem parseBatch_eq_ok {val : Bytes} {batch : WriteBatch} : parseBatch val = .ok batch ↔ Declares val batch := by
  rw [parseBatch]
  constructor
  · intro h
    split at h
    · cases h
    obtain ⟨ops,hcount,hall,⟨rest,hrest⟩,rfl⟩ := parseOps_eq_ok.mp h
    refine ⟨ops,?_,hall,⟨rest,?_⟩,rfl⟩
    · rw [hcount]
      exact decodeFixed32_lt val
    · rw [hcount,append_assoc,← hrest]
      exact eq_encodeFixed32_append (by omega)
  · rintro ⟨ops,hcount,hall,⟨rest,rfl⟩,rfl⟩
    rw [if_neg (by simp),append_assoc,decodeFixed32_encode,Nat.mod_eq_of_lt hcount,
      drop_left' (length_encodeFixed32 _)]
    exact parseOps_eq_ok.mpr ⟨ops,rfl,hall,⟨rest,rfl⟩,rfl⟩

lemma status_of_parseOp {r : Response} (h : parseOp p = .error r) : r.status = .error := by
  rw [parseOp] at h
  dsimp only at h
  split_ifs at h with hshort hkey hval hput hdelete
  all_goals
    obtain rfl := error.inj h
    rfl

lemma status_of_parseOps {count : ℕ} {batch : WriteBatch} {r : Response}
    (h : parseOps count p batch = .error r) : r.status = .error := by
  induction count generalizing p batch with
  | zero => cases h
  | succ count ih =>
    rw [parseOps] at h
    split at h
    · rename_i hop
      obtain rfl := error.inj h
      exact status_of_parseOp hop
    · exact ih h

/-- The branch writes the batch that the payload declares, or it refuses the payload and writes nothing. -/
theorem kBatch_cases (db : DB Q σ) (val : Bytes) (s : σ) :
    (∃ batch, Declares val batch ∧ kBatch db val s = (written (db.write batch s).1,(db.write batch s).2)) ∨
      (∀ batch, ¬Declares val batch) ∧ ∃ r : Response, r.status = .error ∧ kBatch db val s = (r,s) := by
  cases hparse : parseBatch val with
  | ok batch =>
    refine .inl ⟨batch,parseBatch_eq_ok.mp hparse,?_⟩
    rw [kBatch,hparse]
  | error r =>
    refine .inr ⟨?_,r,?_,?_⟩
    · intro batch hbatch
      rw [parseBatch_eq_ok.mpr hbatch] at hparse
      cases hparse
    · rw [parseBatch] at hparse
      split at hparse
      · obtain rfl := error.inj hparse
        rfl
      · exact status_of_parseOps hparse
    · rw [kBatch,hparse]

end Server
end TitanKV.Minikv
