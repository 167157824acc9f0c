import TitanKV.Minikv.SSTableReader

/-! Failing `read` calls make the reader fail, but never make it read something else. -/
namespace TitanKV.Minikv
open Option

namespace InFile

def calm (f : InFile) : InFile := { f with outcomes := [] }

lemma calm_lseek (f : InFile) (offset : ℕ) : (f.lseek offset).calm = f.calm.lseek offset := by
  rw [lseek,lseek]
  split <;> rfl

lemma readFull_calm {f f' : InFile} {len : ℕ} {data : Bytes} (h : f.readFull len = (some data,f')) :
    f.calm.readFull len = (some data,f'.calm) := by
  obtain ⟨hdata,hlen,hpos⟩ := eq_of_readFull (congrArg Prod.fst h)
  have hfile : f'.content = f.content := by
    rw [← content_readFull f len,h]
  have hafter : f'.calm = ⟨f.content,f.pos+len,[]⟩ := by
    rw [h] at hpos
    rw [calm,hfile,hpos]
  have hread : f.calm.read len = (some data,⟨f.content,f.pos+len,[]⟩) := by
    have havailable : (f.calm.content.drop f.calm.pos).take len = data := hdata.symm
    have hcalm : f.calm.outcomes.headD .full = .full := rfl
    simp only [read,hcalm,havailable,hlen]
    rfl
  rw [readFull,hread,hafter]
  simp [Option.filter,hlen]

end InFile

open InFile

variable {codec : Codec}

lemma decompressBlock_error {type : CompressionType} {payload : Bytes} {size : ℕ} {status : Status}
    (h : decompressBlock codec type payload size = .error status) : status.ok = false := by
  cases type with
  | none => cases h
  | snappy | zstd =>
    simp only [decompressBlock] at h
    split at h
    · cases h
      rfl
    · split at h
      · cases h
        rfl
      · cases h
  | other c =>
    cases h
    rfl

lemma readBlock_error {f f' : InFile} {h : BlockHandle} {status : Status}
    (hr : readBlock codec f h = (.error status,f')) : status.ok = false := by
  rw [readBlock] at hr
  split at hr
  · cases hr
    rfl
  · dsimp only at hr
    split at hr
    · cases hr
      rfl
    · split at hr
      · cases hr
      · split at hr
        · cases hr
          rfl
        · split at hr
          · cases hr
            rfl
          · exact decompressBlock_error (congrArg Prod.fst hr)

lemma readBlock_calm {f f' : InFile} {h : BlockHandle} {block : Bytes}
    (hr : readBlock codec f h = (.ok block,f')) : readBlock codec f.calm h = (.ok block,f'.calm) := by
  rw [readBlock] at hr ⊢
  split at hr
  · cases hr
  · rename_i hsize
    rw [if_neg hsize]
    dsimp only at hr ⊢
    rw [← calm_lseek]
    split at hr
    · cases hr
    · rename_i header fh hheader
      rw [readFull_calm hheader]
      dsimp only at hr ⊢
      split at hr
      · rename_i hzero
        cases hr
        rw [if_pos hzero]
      · rename_i hzero
        rw [if_neg hzero]
        split at hr
        · cases hr
        · rename_i payload fp hpayload
          rw [readFull_calm hpayload]
          dsimp only at hr ⊢
          split at hr
          · cases hr
          · rename_i hcrc
            rw [if_neg hcrc]
            obtain ⟨hblock,rfl⟩ := Prod.mk.inj hr
            rw [hblock]

lemma scanBlocks_calm {start stop : Bytes} {es : List IndexEntry} {f : InFile}
    (h : (scanBlocks codec start stop es f).1.ok = true) :
    scanBlocks codec start stop es f.calm = scanBlocks codec start stop es f := by
  induction es generalizing f with
  | nil => rfl
  | cons e es ih =>
    rw [scanBlocks] at h
    rw [scanBlocks,scanBlocks]
    split at h
    · rename_i hstop
      rw [if_pos hstop,if_pos hstop]
    · rename_i hstop
      split at h
      · rename_i status fe herror
        rw [readBlock_error herror] at h
        cases h
      · rename_i block fb hblock
        rw [readBlock_calm hblock]
        dsimp only at h ⊢
        rw [ih h]

section
variable {opened : Bool} {content : Option Bytes} {outcomes : List ReadOutcome} {r : SSTableReader}
  (h : SSTableReader.openFile opened content outcomes = some r)
include h

lemma openFile_calm :
    SSTableReader.openFile true content [] = some { r with file := r.file.calm } := by
  cases opened with
  | false => cases h
  | true =>
    cases content with
    | none => cases h
    | some bytes =>
      simp only [SSTableReader.openFile,if_true,bind_eq_bind,bind_some] at h ⊢
      split at h
      · cases h
      · rename_i hsize
        rw [if_neg hsize]
        obtain ⟨footer,hfooter,h⟩ := bind_eq_some_iff.mp h
        have hfooter' := readFull_calm (Prod.ext_iff.mpr ⟨hfooter,rfl⟩)
        rw [calm_lseek] at hfooter'
        have hstart : (⟨bytes,0,[]⟩ : InFile) = (⟨bytes,0,outcomes⟩ : InFile).calm := rfl
        rw [hstart,hfooter',bind_some]
        split at h
        · cases h
        · rename_i hmagic
          rw [if_neg hmagic]
          split at h
          · cases h
          · rename_i hversion
            rw [if_neg hversion]
            obtain ⟨header,hheader,h⟩ := bind_eq_some_iff.mp h
            have hheader' := readFull_calm (Prod.ext_iff.mpr ⟨hheader,rfl⟩)
            rw [calm_lseek] at hheader'
            rw [hheader',bind_some]
            obtain ⟨data,hdata,h⟩ := bind_eq_some_iff.mp h
            rw [readFull_calm (Prod.ext_iff.mpr ⟨hdata,rfl⟩),bind_some]
            cases h
            rfl

theorem tableEntries_of_scan
    (hscan : (r.scan codec [] []).1.ok = true) :
    content.bind (tableEntries codec) = some (r.scan codec [] []).2 := by
  have hopen := openFile_calm h
  have hcalm : SSTableReader.scan codec { r with file := r.file.calm } [] [] = r.scan codec [] [] :=
    scanBlocks_calm hscan
  cases content with
  | none => cases hopen
  | some bytes => rw [bind_some,tableEntries,hopen,bind_some,hcalm,if_pos hscan]

end

end TitanKV.Minikv
