import TitanKV.Minikv.FlushDurability

/-! `SSTableReader::open` on a table whose index was damaged. The builder stores a checksum of the
index, which `open` does not look at. -/
namespace TitanKV.Minikv
open Parsing List SSTableBuilder SSTableReader Store

/-- Bytes that differ in at most four consecutive places. -/
def Burst (a b : Bytes) : Prop :=
  ∃ front old new back, a = front++(old++back) ∧ b = front++(new++back) ∧ old.length = new.length ∧ old.length≤4

/-- `open` refuses the damaged table or has the same index entries. -/
def Notices (content damaged : Bytes) : Prop :=
  openFile true (some damaged) [] = none ∨
    ∃ r r', openFile true (some content) [] = some r ∧
      openFile true (some damaged) [] = some r' ∧ r'.indexEntries = r.indexEntries

def GuardsIndex (content : Bytes) : Prop :=
  ∀ data index damaged, content = data++(indexHeader index++(index++footer data.length index.length)) →
    Burst index damaged → Notices content (data++(indexHeader index++(damaged++footer data.length index.length)))

lemma Burst.length_eq {a b : Bytes} (h : Burst a b) : a.length = b.length := by
  obtain ⟨front,old,new,back,rfl,rfl,hlength,-⟩ := h
  simp [hlength]

/-- Another number in the last field of an entry. -/
def otherSize (n : ℕ) : ℕ := 256*(n/256)+(n+1) % 256

lemma burst_indexEntry (key : Bytes) (h : BlockHandle) :
    Burst (indexEntry key h) (indexEntry key ⟨h.offset,otherSize h.size⟩) := by
  have hhigh : otherSize h.size/256 = h.size/256 := by
    rw [otherSize]
    omega
  refine ⟨encodeVariant32 key.length++key++encodeFixed64 h.offset,[UInt8.ofNat h.size],
    [UInt8.ofNat (otherSize h.size)],LittleEndian.bytes 7 (h.size/256),rfl,?_,rfl,by simp⟩
  rw [← hhigh]
  rfl

lemma Burst.append_left {a b : Bytes} (h : Burst a b) (front : Bytes) : Burst (front++a) (front++b) := by
  obtain ⟨front',old,new,back,rfl,rfl,hlength⟩ := h
  exact ⟨front++front',old,new,back,by simp,by simp,hlength⟩

/-- The index of a table with entries can be damaged without `open` noticing it. -/
lemma not_guardsIndex_of_entries {data index content : Bytes} {entries : List IndexEntry} (hne : entries ≠ [])
    (hindex : index = entries.flatMap fun e => indexEntry e.lastKey e.handle) (hfit : index.length<2^32)
    (hdata : data.length<2^62)
    (hentries : ∀ e ∈ entries, e.lastKey.length<2^32 ∧ e.handle.offset<2^64 ∧ e.handle.size<2^64)
    (hcontent : content = data++(indexHeader index++(index++footer data.length index.length))) :
    ¬GuardsIndex content := by
  obtain ⟨front,e,rfl⟩ : ∃ front e, entries = front++[e] := ⟨_,_,(dropLast_append_getLast hne).symm⟩
  obtain ⟨damaged,hdamaged⟩ : ∃ entries : List IndexEntry,
      entries = front++[⟨e.lastKey,e.handle.offset,otherSize e.handle.size⟩] := ⟨_,rfl⟩
  have he := hentries e (by simp)
  have hsize : otherSize e.handle.size<2^64 ∧ otherSize e.handle.size ≠ e.handle.size := by
    rw [otherSize]
    omega
  have hdamagedFits : ∀ x ∈ damaged, x.lastKey.length<2^32 ∧ x.handle.offset<2^64 ∧ x.handle.size<2^64 := by
    intro x hx
    rw [hdamaged] at hx
    rcases mem_append.mp hx with hx | hx
    · exact hentries x (mem_append_left _ hx)
    · rw [mem_singleton.mp hx]
      exact ⟨he.1,he.2.1,hsize.1⟩
  have hburst : Burst index (damaged.flatMap fun e => indexEntry e.lastKey e.handle) := by
    rw [hindex,hdamaged,flatMap_append,flatMap_append,flatMap_singleton,flatMap_singleton]
    exact (burst_indexEntry e.lastKey e.handle).append_left _
  intro h
  have hlength := hburst.length_eq
  have hnotices := h data index _ hcontent hburst
  rw [hlength] at hnotices
  obtain ⟨r,-,hopen,hr,-⟩ := openFile_finished hindex hfit hdata hentries hcontent
  obtain ⟨r',-,hopen',hr',-⟩ := openFile_layout (by omega) hdata (length_indexHeader index)
    ((decode_indexHeader hfit).trans hlength) rfl
  rw [many_readIndexEntry hdamagedFits] at hr'
  rcases hnotices with hnone | ⟨s,s',hs,hs',hsame⟩
  · rw [hopen'] at hnone
    cases hnone
  · rw [hopen] at hs
    rw [hopen'] at hs'
    cases hs
    cases hs'
    rw [hr,hr',hdamaged,append_cancel_left_eq,singleton_inj] at hsame
    exact hsize.2 (congrArg (fun e : IndexEntry => e.handle.size) hsame)

lemma not_guardsIndex_of_ne_nil (codec : Codec) (blockSize : ℕ) (compression : CompressionType)
    {outcomes : List WriteOutcome} (hfull : ∀ o ∈ outcomes, o = .full) {es : List KeyValue}
    (hsizes : SizesBelow (2^32) blockSize es) (hne : es ≠ []) : ¬GuardsIndex
      (((init blockSize compression true outcomes).addAll codec es).finish codec).2.file.content := by
  obtain ⟨-,hcontent⟩ := finish_addAll codec blockSize compression hfull es rfl rfl
  obtain ⟨hfit,hdata,hentries⟩ := @SizesBelow.placed _ es compression codec _ hsizes _ rfl rfl
  refine not_guardsIndex_of_entries ?_ (flatMap_map ..).symm hfit hdata hentries hcontent
  obtain ⟨-,r,-,-,hes⟩ := exists_over codec blockSize compression hfull hsizes
  intro hnil
  rw [map_eq_nil_iff.mp hnil] at hes
  exact hne hes.symm

/-- Only where the index is empty is it guarded. -/
theorem guardsIndex_iff (codec : Codec) (blockSize : ℕ) (compression : CompressionType)
    {outcomes : List WriteOutcome} (hfull : ∀ o ∈ outcomes, o = .full) {es : List KeyValue}
    (hsizes : SizesBelow (2^32) blockSize es) : GuardsIndex
      (((init blockSize compression true outcomes).addAll codec es).finish codec).2.file.content ↔
      es = [] := by
  constructor
  · intro h
    by_contra hne
    exact not_guardsIndex_of_ne_nil codec blockSize compression hfull hsizes hne h
  · rintro rfl data index damaged hsplit hburst
    obtain ⟨-,hcontent⟩ := finish_addAll codec blockSize compression hfull [] rfl rfl
    -- Without entries the file is as long as its header and footer, which leaves no room for an index.
    have hlength := congrArg length (hcontent.symm.trans hsplit)
    have hempty : data.length = 0 ∧ index.length = 0 := by
      have hblocks : dataBlocks blockSize .init [] = [] := rfl
      simp only [hblocks,placeBlocks,placedIndex,flatMap_nil,length_append,length_indexHeader,length_footer,
        length_nil] at hlength
      omega
    obtain rfl := length_eq_zero_iff.mp hempty.1
    obtain rfl := length_eq_zero_iff.mp hempty.2
    obtain rfl : damaged = [] := length_eq_zero_iff.mp hburst.length_eq.symm
    rw [← hsplit]
    obtain ⟨r,-,hopen,-⟩ := @openFile_finished [] [] [] rfl (by simp) (by simp) (by simp) _ hsplit
    exact .inr ⟨r,r,hopen,hopen,rfl⟩

theorem guardsIndex_empty_table : GuardsIndex
    (((init 4096 .none true []).addAll markingCodec []).finish markingCodec).2.file.content :=
  (guardsIndex_iff markingCodec 4096 .none (by simp) (.of_totalSize (by decide +kernel) 4096)).2 rfl

def oneEntry : KeyValue := ((⟨[107],1,.value⟩ : InternalKey).encode,[118])

def oneEntryTable : Bytes :=
  (((init 4096 .none true []).addAll markingCodec [oneEntry]).finish
    markingCodec).2.file.content

/-- One byte of the block's size is changed, and `open` reads another size. -/
theorem open_reads_damaged_index : ¬GuardsIndex oneEntryTable ∧
    (openFile true (some oneEntryTable) []).map (·.indexEntries) = some [⟨oneEntry.1,⟨0,34⟩⟩] ∧
    (openFile true (some (oneEntryTable.set 60 35)) []).map (·.indexEntries) =
      some [⟨oneEntry.1,⟨0,35⟩⟩] :=
  ⟨not_guardsIndex_of_ne_nil markingCodec 4096 .none (by simp) (.of_totalSize (by decide +kernel) 4096) (by simp),
    by decide +kernel,by decide +kernel⟩

end TitanKV.Minikv
