import TitanKV.Minikv.Connection

/-! A connection without a business pool: `onReadable` on the chunks of a stream. -/
namespace TitanKV.Minikv
open Parsing List RequestHeader Cmd

section Serve
variable {σ : Type*} (handler : Bytes → σ → Bytes × σ)

def serve : List Bytes → σ → List (Bytes × Bytes) × σ
  | [],s => ([],s)
  | frame::frames,s =>
    let r := handler frame s
    ((frame,r.1)::(serve frames r.2).1,(serve frames r.2).2)

lemma serve_append (frames frames' : List Bytes) (s : σ) : serve handler (frames++frames') s =
    ((serve handler frames s).1++(serve handler frames' (serve handler frames s).2).1,
      (serve handler frames' (serve handler frames s).2).2) := by
  induction frames generalizing s with
  | nil => rfl
  | cons frame frames ih => simp only [cons_append,serve,ih]

@[simp] lemma map_fst_serve (frames : List Bytes) (s : σ) : (serve handler frames s).1.map Prod.fst = frames := by
  induction frames generalizing s with
  | nil => rfl
  | cons frame frames ih => simp only [serve,map_cons,ih]

def responses (frames : List Bytes) (s : σ) : Bytes := (serve handler frames s).1.flatMap Prod.snd

lemma responses_append (frames frames' : List Bytes) (s : σ) : responses handler (frames++frames') s =
    responses handler frames s ++ responses handler frames' (serve handler frames s).2 := by
  rw [responses,serve_append,flatMap_append]
  rfl

variable {frames : List Bytes}

lemma ne_nil_of_mem_serve (hanswers : ∀ raw s, (handler raw s).1 ≠ []) {s : σ}
    {r : Bytes × Bytes} (h : r ∈ (serve handler frames s).1) : r.2 ≠ [] := by
  induction frames generalizing s with
  | nil => cases h
  | cons frame frames ih =>
    rcases mem_cons.mp h with rfl | h
    · exact hanswers frame s
    · exact ih h

lemma responses_ne_nil (hanswers : ∀ raw s, (handler raw s).1 ≠ []) (h : frames ≠ []) (s : σ) :
    responses handler frames s ≠ [] := by
  cases frames with
  | nil => exact absurd rfl h
  | cons frame frames =>
    exact append_ne_nil_of_left_ne_nil (hanswers frame s) _

end Serve

namespace Connection
variable {σ : Type*} {handler : Bytes → σ → Bytes × σ}

/-- The connection after the handler was called on all complete frames of the buffer. -/
def served (handler : Bytes → σ → Bytes × σ) (c : Connection σ) : Connection σ :=
  { c with
    readBuf := restOf c.readBuf
    writeBuf := c.writeBuf ++ responses handler (framesOf c.readBuf) c.state
    close := c.close || badMagic (restOf c.readBuf)
    state := (serve handler (framesOf c.readBuf) c.state).2
    handled := c.handled++(serve handler (framesOf c.readBuf) c.state).1
    appended := c.appended ++ (serve handler (framesOf c.readBuf) c.state).1.map Prod.snd }

theorem serveLoop_eq {fuel : ℕ} {c : Connection σ} (hfuel : c.readBuf.length<fuel) :
    serveLoop handler fuel c = (c.served handler,!badMagic (restOf c.readBuf)) := by
  rw [served]
  induction fuel generalizing c with
  | zero => omega
  | succ fuel ih =>
    cases hnext : nextFrame c.readBuf with
    | none =>
      have hrest : restOf c.readBuf = c.readBuf := remainder_of_none hnext
      have hframes : framesOf c.readBuf = [] := many_of_none hnext
      rw [serveLoop_of_none hnext,hrest,hframes]
      by_cases hbad : badMagic c.readBuf = true
      · simp [hbad,responses,serve]
      · simp [hbad,responses,serve]
    | some r =>
      obtain ⟨raw,rest⟩ := r
      have hlt := nextFrame_consumes _ _ _ hnext
      have hrest : restOf c.readBuf = restOf rest := remainder_of_some nextFrame_consumes hnext
      have hframes : framesOf c.readBuf = raw::framesOf rest := many_of_some nextFrame_consumes hnext
      rw [serveLoop_of_some hnext,ih (by simp only [append,call]; omega),hrest,hframes]
      simp [append,call,serve,responses]

lemma onReadableSync_data (accept : Bytes → ℤ) (chunk : Bytes) (c : Connection σ) :
    c.onReadableSync handler accept (.data chunk) =
      if badMagic (restOf (c.readBuf++chunk)) then { c with readBuf := c.readBuf ++ chunk }.served handler
      else ({ c with readBuf := c.readBuf ++ chunk }.served handler).onWritable accept := by
  have hloop := @serveLoop_eq σ handler (c.readBuf++chunk).length.succ { c with readBuf := c.readBuf ++ chunk }
    (Nat.lt_succ_self _)
  have hread : c.onReadableSync handler accept (.data chunk) =
      if (serveLoop handler (c.readBuf++chunk).length.succ { c with readBuf := c.readBuf ++ chunk }).2 then
        (serveLoop handler (c.readBuf++chunk).length.succ
          { c with readBuf := c.readBuf ++ chunk }).1.onWritable accept
      else (serveLoop handler (c.readBuf++chunk).length.succ { c with readBuf := c.readBuf ++ chunk }).1 := rfl
  rw [hread]
  simp only [hloop]
  cases badMagic (restOf (c.readBuf++chunk)) <;> rfl

/-- What a connection has done with the bytes that it received, on a socket that takes everything. -/
structure Fed (handler : Bytes → σ → Bytes × σ) (s : σ) (received : Bytes) (c : Connection σ) : Prop where
  readBuf : c.readBuf = restOf received
  handled : c.handled = (serve handler (framesOf received) s).1
  state : c.state = (serve handler (framesOf received) s).2
  sent : c.sent++c.writeBuf = responses handler (framesOf received) s
  flushed : badMagic (restOf received) = false → c.writeBuf = []

lemma fed_fresh (s : σ) : Fed handler s [] (fresh s) := by
  have hrest : restOf [] = [] := remainder_of_none rfl
  have hframes : framesOf [] = [] := many_of_none rfl
  constructor
  · rw [hrest]; rfl
  · rw [hframes]; rfl
  · rw [hframes]; rfl
  · rw [hframes]; rfl
  · exact fun _ => rfl

variable {s : σ} {received : Bytes} {c : Connection σ}

/-- One call of `onReadable`. It does not write to the socket if it ends at a bad header. -/
lemma Fed.step (h : Fed handler s received c) (chunk : Bytes) :
    Fed handler s (received++chunk) (c.onReadableSync handler acceptAll (.data chunk)) ∧
      (badMagic (restOf (received++chunk)) = true →
        (c.onReadableSync handler acceptAll (.data chunk)).sent = c.sent) := by
  have hframes := framesOf_append received chunk
  have hrest := restOf_append received chunk
  rw [onReadableSync_data,served]
  rw [h.readBuf,← hrest,h.state]
  have hresponses : c.sent ++ (c.writeBuf ++ responses handler (framesOf (restOf received ++ chunk))
      (serve handler (framesOf received) s).2) = responses handler (framesOf (received++chunk)) s := by
    rw [hframes,responses_append,← h.sent,append_assoc]
  have hhandled : c.handled ++ (serve handler (framesOf (restOf received ++ chunk))
      (serve handler (framesOf received) s).2).1 = (serve handler (framesOf (received++chunk)) s).1 := by
    rw [hframes,serve_append,h.handled]
  have hstate : (serve handler (framesOf (restOf received ++ chunk)) (serve handler (framesOf received) s).2).2 =
      (serve handler (framesOf (received++chunk)) s).2 := by
    rw [hframes,serve_append]
  cases hbad : badMagic (restOf (received++chunk)) with
  | true =>
    refine ⟨⟨rfl,hhandled,hstate,hresponses,?_⟩,fun _ => rfl⟩
    rw [hbad]
    exact nofun
  | false =>
    rw [if_neg nofun,onWritable_acceptAll]
    refine ⟨⟨rfl,hhandled,hstate,?_,fun _ => rfl⟩,nofun⟩
    rw [append_nil]
    exact hresponses

def feed (handler : Bytes → σ → Bytes × σ) (chunks : List Bytes) (c : Connection σ) : Connection σ :=
  chunks.foldl (fun c chunk => c.onReadableSync handler acceptAll (.data chunk)) c

lemma Fed.feed (h : Fed handler s received c) (chunks : List Bytes) :
    Fed handler s (received++chunks.flatten) (c.feed handler chunks) := by
  induction chunks generalizing received c with
  | nil => rwa [flatten_nil,append_nil]
  | cons chunk chunks ih =>
    rw [flatten_cons,← append_assoc]
    exact ih (h.step chunk).1

lemma Fed.sent_feed (h : Fed handler s received c) (hbad : badMagic (restOf received) = true) (chunks : List Bytes) :
    (c.feed handler chunks).sent = c.sent := by
  induction chunks generalizing received c with
  | nil => rfl
  | cons chunk chunks ih =>
    have hbad' : badMagic (restOf (received++chunk)) = true := by
      rw [(framesOf_append_of_badMagic hbad chunk).2]
      exact badMagic_append hbad chunk
    calc (c.feed handler (chunk::chunks)).sent
        = (c.onReadableSync handler acceptAll (.data chunk)).sent := ih (h.step chunk).1 hbad'
      _ = c.sent := (h.step chunk).2 hbad'

/-- The chunks that `::read` may return for a stream: its buffer has 4096 bytes. -/
structure IsSplit (chunks : List Bytes) (stream : Bytes) : Prop where
  flatten : chunks.flatten = stream
  sizes : ∀ chunk ∈ chunks, 1≤chunk.length ∧ chunk.length≤4096

/-- The handler is called on the frames of the stream in order, and their responses are written. -/
def FramesServed (handler : Bytes → σ → Bytes × σ) (s : σ) (stream : Bytes) (chunks : List Bytes) : Prop :=
  ((fresh s).feed handler chunks).handled = (serve handler (framesOf stream) s).1 ∧
    ((fresh s).feed handler chunks).sent = responses handler (framesOf stream) s

/-- The last frame arrives together with the bad header behind it, every other byte alone. -/
def tornSplit (stream : Bytes) : List Bytes :=
  let frames := (framesOf stream).flatten
  frames.dropLast.map (fun b => [b]) ++ [frames.drop (frames.length-1) ++ (restOf stream).take size] ++
    ((restOf stream).drop size).map fun b => [b]

lemma flatten_singletons (bs : Bytes) : (bs.map fun b => [b]).flatten = bs := by
  induction bs with
  | nil => rfl
  | cons b bs ih => rw [map_cons,flatten_cons,ih]; rfl

lemma badMagic_take {buf : Bytes} (h : badMagic buf = true) : badMagic (buf.take size) = true := by
  rw [badMagic,decide_eq_true_eq] at h ⊢
  have hlen : (buf.take size).length = size := length_take_of_le h.1
  refine ⟨hlen.ge,?_⟩
  rw [← ofBytes_append hlen.ge (buf.drop size),take_append_drop]
  exact h.2

lemma flatten_framesOf_ne_nil {stream : Bytes} (h : framesOf stream ≠ []) : (framesOf stream).flatten ≠ [] := by
  obtain ⟨frame,hframe⟩ := exists_mem_of_ne_nil _ h
  obtain ⟨s,rest,hs⟩ := exists_of_mem_many hframe
  obtain ⟨hlen,-,htotal,rfl,-⟩ := nextFrame_eq_some hs
  have hsize : size = 11 := rfl
  intro hnil
  have hempty := flatten_eq_nil_iff.mp hnil _ hframe
  have hlength := length_take_of_le htotal
  rw [hempty,RequestHeader.totalSize,length_nil] at hlength
  omega

section Torn
variable {stream : Bytes} (hframes : framesOf stream ≠ []) (hbad : badMagic (restOf stream) = true)
include hframes hbad

omit hframes in
lemma isSplit_tornSplit : IsSplit (tornSplit stream) stream := by
  have hsize : size = 11 := rfl
  have hlen : size≤(restOf stream).length := by
    rw [badMagic,decide_eq_true_eq] at hbad
    exact hbad.1
  constructor
  · calc (tornSplit stream).flatten
        = (framesOf stream).flatten.dropLast ++
          ((framesOf stream).flatten.drop ((framesOf stream).flatten.length-1) ++
            (restOf stream).take size) ++ (restOf stream).drop size := by
          rw [tornSplit,flatten_append,flatten_append,flatten_singletons,flatten_singletons,
            flatten_singleton]
      _ = (framesOf stream).flatten ++ restOf stream := by
          rw [dropLast_eq_take,← append_assoc,take_append_drop,append_assoc,take_append_drop]
      _ = stream := flatten_framesOf stream
  · intro chunk hchunk
    rcases mem_append.mp hchunk with hchunk | hchunk
    · rcases mem_append.mp hchunk with hchunk | hchunk
      · obtain ⟨b,-,rfl⟩ := mem_map.mp hchunk
        exact ⟨le_rfl,by simp⟩
      · obtain rfl := mem_singleton.mp hchunk
        rw [length_append,length_drop,length_take_of_le hlen]
        omega
    · obtain ⟨b,-,rfl⟩ := mem_map.mp hchunk
      exact ⟨le_rfl,by simp⟩

lemma sent_tornSplit (handler : Bytes → σ → Bytes × σ) (s : σ) : ∃ frames, frames ≠ [] ∧
    ∃ before, framesOf stream = before++frames ∧
      ((fresh s).feed handler (tornSplit stream)).sent = responses handler before s := by
  have hpos := length_pos_of_ne_nil (flatten_framesOf_ne_nil hframes)
  have hfull := flatten_framesOf stream
  generalize hF : (framesOf stream).flatten = F at hpos hfull
  generalize hR : restOf stream = R at hbad hfull
  have hsplit : F.dropLast++(F.drop (F.length-1) ++ R) = stream := by
    rw [← append_assoc,dropLast_eq_take,take_append_drop,hfull]
  -- before its last byte, the last frame is not complete
  have hshort : framesOf F.dropLast ≠ framesOf stream := by
    intro heq
    have hlen := congrArg length (flatten_framesOf F.dropLast)
    rw [heq,hF,length_append,length_dropLast] at hlen
    omega
  have hgood : badMagic (restOf F.dropLast) = false := by
    by_contra hbad'
    rw [Bool.not_eq_false] at hbad'
    apply hshort
    rw [← (framesOf_append_of_badMagic hbad' (F.drop (F.length-1) ++ R)).1,hsplit]
  have hfed := (@fed_fresh σ handler s).feed (F.dropLast.map fun b => [b])
  rw [flatten_singletons,nil_append] at hfed
  have hsent := hfed.sent
  rw [hfed.flushed hgood,append_nil] at hsent
  -- the chunk with the bad header
  have hbad' : badMagic (restOf (F.dropLast++(F.drop (F.length-1) ++ R.take size))) = true := by
    rw [← append_assoc,dropLast_eq_take,take_append_drop,← hF,restOf,framesOf,
      remainder_flatten_append nextFrame_consumes nextFrame_cuts,
      remainder_of_none (nextFrame_of_badMagic (badMagic_take hbad))]
    exact badMagic_take hbad
  obtain ⟨hfed',hsame⟩ := hfed.step (F.drop (F.length-1) ++ R.take size)
  have hrest := hfed'.sent_feed hbad' ((R.drop size).map fun b => [b])
  refine ⟨framesOf (restOf F.dropLast ++ (F.drop (F.length-1) ++ R)),?_,framesOf F.dropLast,?_,?_⟩
  · intro hnil
    apply hshort
    rw [← hsplit,framesOf_append,hnil,append_nil]
  · rw [← framesOf_append,hsplit]
  · rw [← hsent,← hsame hbad',← hrest,tornSplit,hF,hR,feed,feed,feed,foldl_append,foldl_append]
    rfl

end Torn

/-- The responses do not depend on how the stream is cut if and only if no bad header follows the frames: where one
    does, `onReadable` returns before it writes what it has. -/
theorem framesServed_iff (handler : Bytes → σ → Bytes × σ) (hanswers : ∀ raw s, (handler raw s).1 ≠ []) (s : σ)
    (stream : Bytes) : (∀ chunks, IsSplit chunks stream → FramesServed handler s stream chunks) ↔
      framesOf stream = [] ∨ badMagic (restOf stream) = false := by
  constructor
  · intro hall
    by_contra hnot
    rw [not_or,Bool.not_eq_false] at hnot
    obtain ⟨hframes,hbad⟩ := hnot
    obtain ⟨frames,hne,before,hsplit,hsent⟩ := sent_tornSplit hframes hbad handler s
    have hall := (hall _ (isSplit_tornSplit hbad)).2
    rw [hsent,hsplit,responses_append] at hall
    exact responses_ne_nil handler hanswers hne _ (self_eq_append_right.mp hall)
  · intro hcond chunks hchunks
    have hfed := (@fed_fresh σ handler s).feed chunks
    rw [nil_append,hchunks.flatten] at hfed
    refine ⟨hfed.handled,?_⟩
    rcases hcond with hnone | hgood
    · have hsent := hfed.sent
      rw [hnone] at hsent ⊢
      exact (append_eq_nil_iff.mp hsent).1
    · rw [← hfed.sent,hfed.flushed hgood,append_nil]

def acknowledge (_ : Bytes) (s : Unit) : Bytes × Unit := (encodeResponse ⟨.ok,[]⟩,s)

lemma acknowledge_ne_nil (raw : Bytes) (s : Unit) : (acknowledge raw s).1 ≠ [] :=
  ne_nil_of_length_pos (by rw [acknowledge,length_encodeResponse]; omega)

/-- A frame and the start of another one. -/
theorem framesServed_of_partial_frame :
    badMagic (restOf (encodeRequest get.code [1] [] ++ [75,77,2])) = false ∧
      ∀ chunks, IsSplit chunks (encodeRequest get.code [1] [] ++ [75,77,2]) →
      FramesServed acknowledge () (encodeRequest get.code [1] [] ++ [75,77,2]) chunks :=
  ⟨by decide +kernel,(framesServed_iff acknowledge acknowledge_ne_nil () _).mpr (.inr (by decide +kernel))⟩

/-- A frame and eleven bytes without the magic number, in one chunk: the request is executed and its response is not
    written. In two chunks it is. -/
theorem not_framesServed_of_one_chunk :
    IsSplit [encodeRequest get.code [1] [] ++ replicate 11 0]
        (encodeRequest get.code [1] [] ++ replicate 11 0) ∧
      ¬FramesServed acknowledge () (encodeRequest get.code [1] [] ++ replicate 11 0)
        [encodeRequest get.code [1] [] ++ replicate 11 0] ∧
      FramesServed acknowledge () (encodeRequest get.code [1] [] ++ replicate 11 0)
        [encodeRequest get.code [1] [],replicate 11 0] := by
  refine ⟨⟨by decide,by decide⟩,?_,by decide +kernel,by decide +kernel⟩
  rintro ⟨-,hsent⟩
  revert hsent
  decide +kernel

end Connection
end TitanKV.Minikv
