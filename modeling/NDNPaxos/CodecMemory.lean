import NDNPaxos.AcceptShards
import NDNPaxos.Library.Accumulator
import Mathlib.Tactic

/-!
# What the codecs remember

Calls of `rs_encode` and `rs_decode` on one encoder and one decoder.  The
members that collect the results are never cleared, so a result begins with
everything that the object has put together before: a call answers as on a new
object exactly when the earlier calls have left nothing in the member.
-/

namespace NDNPaxos

inductive CodecCall where
  | encode (data : Bytes)
  | decode (blocks : List Bytes) (map : List Bool) (lostNum : ℕ)
deriving DecidableEq, Repr

inductive CodecResult where
  /-- `none` is the exception of `substr`. -/
  | encoded (blocks : Option (List Bytes))
  | decoded (data : Bytes)
deriving DecidableEq, Repr

structure Codec where
  encoder : RSEncoder
  decoder : RSDecoder

/-- The blocks that the first loop of `rs_encode` pushes before `substr` throws. -/
def RSEncoder.pushed (encoder : RSEncoder) (data : Bytes) : List Bytes :=
  (((List.range encoder.k).map fun i =>
    substr data (i * encoder.blkSize data) (encoder.blkSize data)).takeWhile
      Option.isSome).filterMap id

namespace Codec

def new (x n : ℕ) : Codec := ⟨.new x n, .new x n⟩

/-- `none` is a read past the end of `map`; an exception keeps what was pushed. -/
def call (fec : Fec) (codec : Codec) : CodecCall → Option (CodecResult × Codec)
  | .encode data =>
      match codec.encoder.rsEncode fec data with
      | some (blocks, encoder) => some (.encoded (some blocks), { codec with encoder })
      | none =>
          let encodedData := codec.encoder.encodedData ++ codec.encoder.pushed data
          some (.encoded none, { codec with encoder := { codec.encoder with encodedData } })
  | .decode blocks map lostNum => do
      let (data, decoder) ← codec.decoder.rsDecode fec blocks map lostNum
      return (.decoded data, { codec with decoder })

def machine (fec : Fec) : PartialMachine Codec CodecCall where
  step := fun codec call => (codec.call fec call).map Prod.snd

def holding (x n : ℕ) (blocks : List Bytes) (data : Bytes) : Codec :=
  ⟨{ k := x, n := n, encodedData := blocks }, { k := x, n := n, decodedData := data }⟩

end Codec

/-- `fec_decode` writes a block of `sz` bytes for every check block among its
inputs. -/
def Fec.FillsBuffers (fec : Fec) : Prop :=
  ∀ k n inpkts index sz, (fec.decode k n inpkts index sz).map List.length =
    List.replicate (index.filter (k ≤ ·)).length sz

/-! ## The objects as accumulators -/

/-- What `rs_encode` pushes, also when it throws. -/
def encodeAdds (fec : Fec) (x n : ℕ) (data : Bytes) : List Bytes :=
  if Encodable x data then shards fec x n data else (RSEncoder.new x n).pushed data

/-- What `rs_decode` appends. -/
def decodeAdds (fec : Fec) (x n : ℕ) (blocks : List Bytes) (map : List Bool) : Option Bytes := do
  let blk := ((blocks[0]?).getD []).length
  let index ← RSDecoder.recoveryIndex map (List.range x) x
  let inpkts := index.map fun i => fec.read ((blocks[i]?).getD []) 0 blk
  return RSDecoder.mergeBlocks blocks map (List.range x) (fec.decode x n inpkts index blk)

def encoding (fec : Fec) (x n : ℕ) : Accumulator CodecCall Bytes where
  adds
    | .encode data => encodeAdds fec x n data
    | .decode _ _ _ => []
  returns
    | .encode data => decide (Encodable x data)
    | .decode _ _ _ => false

def decoding (fec : Fec) (x n : ℕ) : Accumulator CodecCall UInt8 where
  adds
    | .encode _ => []
    | .decode blocks map _ => (decodeAdds fec x n blocks map).getD []
  returns
    | .encode _ => false
    | .decode blocks map _ => (decodeAdds fec x n blocks map).isSome

section Calls

variable {fec : Fec} {x n : ℕ}

theorem call_encode (hx : 0 < x) (hle : x ≤ n) (collected : List Bytes) (memory data : Bytes) :
    (Codec.holding x n collected memory).call fec (.encode data) =
      some (.encoded ((encoding fec x n).answer collected (.encode data)),
        Codec.holding x n (collected ++ (encoding fec x n).adds (.encode data)) memory) := by
  have hencode : (Codec.holding x n collected memory).encoder.rsEncode fec data = _ :=
    rsEncode_eq _ hx hle data
  simp only [Codec.call, hencode]
  by_cases hencodable : Encodable x data
  · simp [Codec.holding, Accumulator.answer, encoding, encodeAdds, hencodable]
  · simp only [Codec.holding, Accumulator.answer, encoding, encodeAdds, hencodable]
    rfl

theorem call_decode (collected : List Bytes) (memory : Bytes) (blocks : List Bytes)
    (map : List Bool) (lostNum : ℕ) :
    (Codec.holding x n collected memory).call fec (.decode blocks map lostNum) =
      ((decoding fec x n).answer memory (.decode blocks map lostNum)).map fun data =>
        (.decoded data, Codec.holding x n collected data) := by
  cases hindex : RSDecoder.recoveryIndex map (List.range x) x with
  | none => simp [Codec.call, RSDecoder.rsDecode, Codec.holding, Accumulator.answer, decoding,
      decodeAdds, hindex]
  | some index => simp [Codec.call, RSDecoder.rsDecode, Codec.holding, Accumulator.answer,
      decoding, decodeAdds, hindex]

theorem result_encode (hx : 0 < x) (hle : x ≤ n) (collected : List Bytes) (memory data : Bytes) :
    ((Codec.holding x n collected memory).call fec (.encode data)).map Prod.fst =
      some (.encoded ((encoding fec x n).answer collected (.encode data))) := by
  rw [call_encode hx hle, Option.map_some]

theorem result_decode (collected : List Bytes) (memory : Bytes) (blocks : List Bytes)
    (map : List Bool) (lostNum : ℕ) :
    ((Codec.holding x n collected memory).call fec (.decode blocks map lostNum)).map Prod.fst =
      ((decoding fec x n).answer memory (.decode blocks map lostNum)).map .decoded := by
  rw [call_decode, Option.map_map]
  rfl

end Calls

/-! ## What a call adds -/

theorem encodeAdds_ne_nil {x n : ℕ} (hx : 0 < x) (hle : x ≤ n) (fec : Fec) (data : Bytes) :
    encodeAdds fec x n data ≠ [] := by
  unfold encodeAdds
  split
  next =>
    apply List.ne_nil_of_length_pos
    rw [length_shards]
    omega
  next =>
    obtain ⟨k, rfl⟩ := Nat.exists_eq_add_of_le' hx
    have hfirst : ∀ len, RSEncoder.substr data 0 len = some (data.take len) := by
      intro len
      rw [RSEncoder.substr, if_pos (Nat.zero_le _), List.drop_zero]
    simp [RSEncoder.pushed, RSEncoder.new, List.range_succ_eq_map, hfirst]

/-- The bytes of the blocks that a value is put together from. -/
def valueSize (x : ℕ) (blocks : List Bytes) (map : List Bool) : ℕ :=
  ((List.range x).map fun i =>
    if map[i]? = some true then ((blocks[i]?).getD []).length
    else ((blocks[0]?).getD []).length).sum

def marked (map : List Bool) : Finset ℕ :=
  (Finset.range map.length).filter fun i => map[i]? = some true

theorem marks_marked (map : List Bool) : Marks map map.length (marked map) := by
  constructor
  · rfl
  · intro i
    rw [marked, Finset.mem_filter, Finset.mem_range]
    constructor
    · intro hflag
      exact ⟨(List.getElem?_eq_some_iff.mp hflag).1, hflag⟩
    · exact And.right

theorem card_marked (map : List Bool) : (marked map).card = map.count true := by
  induction map using List.reverseRecOn with
  | nil => rfl
  | append_singleton map flag ih =>
      have hold : (Finset.range map.length).filter (fun i => (map ++ [flag])[i]? = some true) =
          marked map := by
        apply Finset.filter_congr
        intro i hmem
        rw [List.getElem?_append_left (Finset.mem_range.mp hmem)]
      have hlast : map.length ∉ marked map := by simp [marked]
      rw [marked, List.length_append, List.length_singleton, Finset.range_add_one,
        Finset.filter_insert, hold, List.getElem?_concat_length, List.count_append, ← ih]
      cases flag with
      | false => simp
      | true => simp [hlast]

section Decoding

variable {fec : Fec} {x n : ℕ} {map : List Bool}

theorem length_filter_index {present : Finset ℕ} {positions index : List ℕ}
    (hbelow : ∀ position ∈ positions, position < x)
    (hstands : List.Forall₂ (Stands present x) positions index) :
    (index.filter (x ≤ ·)).length = (positions.filter (· ∉ present)).length := by
  induction hstands with
  | nil => rfl
  | @cons position i positions index hhead htail ih =>
      have hposition := hbelow position (List.mem_cons_self ..)
      have hrest := ih fun other hmem => hbelow other (List.mem_cons_of_mem position hmem)
      have hplace := hhead.2
      split_ifs at hplace with hpresent
      · rw [List.filter_cons_of_neg (by simp; omega),
          List.filter_cons_of_neg (by simpa using hpresent), hrest]
      · rw [List.filter_cons_of_pos (by simpa using hplace),
          List.filter_cons_of_pos (by simpa using hpresent), List.length_cons, List.length_cons,
          hrest]

theorem length_mergeBlocks {present : Finset ℕ} (hmarks : Marks map n present)
    (blocks : List Bytes) (sz : ℕ) {positions : List ℕ} {recovered : List Bytes}
    (hsizes : recovered.map List.length =
      List.replicate (positions.filter (· ∉ present)).length sz) :
    (RSDecoder.mergeBlocks blocks map positions recovered).length =
      (positions.map fun i =>
        if map[i]? = some true then ((blocks[i]?).getD []).length else sz).sum := by
  induction positions generalizing recovered with
  | nil => rfl
  | cons position rest ih =>
      rw [RSDecoder.mergeBlocks, List.map_cons, List.sum_cons]
      by_cases hflag : map[position]? = some true
      · have hpresent := (hmarks.mem_iff position).mp hflag
        rw [List.filter_cons_of_neg (by simpa using hpresent)] at hsizes
        rw [if_pos hflag, if_pos hflag, List.length_append, ih hsizes]
      · have hpresent := mt (hmarks.mem_iff position).mpr hflag
        rw [List.filter_cons_of_pos (by simpa using hpresent), List.length_cons,
          List.replicate_succ, List.map_eq_cons_iff] at hsizes
        rcases hsizes with ⟨block, others, rfl, rfl, hothers⟩
        rw [if_neg hflag, if_neg hflag, List.length_append, List.tail_cons, ih hothers]
        rfl

theorem decodeAdds_isSome_iff (fec : Fec) (n : ℕ) (blocks : List Bytes) :
    (decodeAdds fec x n blocks map).isSome ↔ x ≤ map.count true := by
  have hmarks := marks_marked map
  rw [← card_marked]
  constructor
  · intro hsome
    cases hindex : RSDecoder.recoveryIndex map (List.range x) x with
    | none => simp [decodeAdds, hindex] at hsome
    | some index =>
        rcases placed_recoveryIndex hmarks hindex with ⟨hplaced, hpresent, _⟩
        rw [← hplaced.length, ← List.toFinset_card_of_nodup hplaced.nodup]
        apply Finset.card_le_card
        exact fun i hi => hpresent i (List.mem_toFinset.mp hi)
  · intro henough
    rcases exists_recoveryIndex hmarks (missing_le_card henough) with ⟨index, hindex⟩
    simp [decodeAdds, hindex]

theorem Fec.FillsBuffers.length_decodeAdds (hfills : fec.FillsBuffers) {blocks : List Bytes}
    {data : Bytes} (hdata : decodeAdds fec x n blocks map = some data) :
    data.length = valueSize x blocks map := by
  have hmarks := marks_marked map
  simp only [decodeAdds, Option.bind_eq_bind, Option.bind_eq_some_iff, pure,
    Option.some.injEq] at hdata
  rcases hdata with ⟨index, hindex, rfl⟩
  have hchecks := length_filter_index (fun position hmem => List.mem_range.mp hmem)
    (recoveryIndex_stands hmarks hindex)
  apply length_mergeBlocks hmarks
  rw [hfills, hchecks]

end Decoding

/-! ## Histories -/

/-- The call returns: the string can be cut, or enough blocks are marked. -/
def CodecCall.Returns (x : ℕ) : CodecCall → Prop
  | .encode data => Encodable x data
  | .decode _ map _ => x ≤ map.count true

def CodecCall.Defined (x : ℕ) : CodecCall → Prop
  | .encode _ => True
  | .decode _ map _ => x ≤ map.count true

/-- A call that leaves something in the member which a later one returns. -/
def CodecCall.Disturbs (x : ℕ) : (earlier later : CodecCall) → Prop
  | .encode _, .encode _ => True
  | .decode blocks map _, .decode _ _ _ => valueSize x blocks map ≠ 0
  | _, _ => False

/-- Nothing of the history is in the result of the call, if it has one. -/
def Unaffected (x : ℕ) (history : List CodecCall) (call : CodecCall) : Prop :=
  call.Returns x → ∀ earlier ∈ history, ¬ earlier.Disturbs x call

instance decidableReturns (x : ℕ) : ∀ call : CodecCall, Decidable (call.Returns x)
  | .encode data => inferInstanceAs (Decidable (Encodable x data))
  | .decode _ map _ => inferInstanceAs (Decidable (x ≤ map.count true))

instance decidableDisturbs (x : ℕ) :
    ∀ earlier later : CodecCall, Decidable (earlier.Disturbs x later)
  | .encode _, .encode _ => inferInstanceAs (Decidable True)
  | .decode blocks map _, .decode _ _ _ => inferInstanceAs (Decidable (valueSize x blocks map ≠ 0))
  | .encode _, .decode _ _ _ => inferInstanceAs (Decidable False)
  | .decode _ _ _, .encode _ => inferInstanceAs (Decidable False)

instance decidableUnaffected (x : ℕ) (history : List CodecCall) (call : CodecCall) :
    Decidable (Unaffected x history call) :=
  inferInstanceAs (Decidable (_ → _))

/-- `n` blocks, or as many bytes as the blocks of the call have. -/
def CodecResult.OneValue (x n : ℕ) : CodecCall → CodecResult → Prop
  | .encode _, .encoded (some blocks) => blocks.length = n
  | .decode blocks map _, .decoded data => data.length = valueSize x blocks map
  | _, _ => True

/-- The call answers as on new objects, with the blocks or the data of one value. -/
structure Memoryless (fec : Fec) (x n : ℕ) (codec : Codec) (call : CodecCall) : Prop where
  fresh : (codec.call fec call).map Prod.fst = ((Codec.new x n).call fec call).map Prod.fst
  oneValue : ∀ result after, codec.call fec call = some (result, after) →
    result.OneValue x n call

section Histories

variable {fec : Fec} {x n : ℕ}

theorem decoding_returns_iff (blocks : List Bytes) (map : List Bool) (lostNum : ℕ) :
    (decoding fec x n).returns (.decode blocks map lostNum) = true ↔ x ≤ map.count true :=
  decodeAdds_isSome_iff fec n blocks

theorem step_holding (hx : 0 < x) (hle : x ≤ n) {collected : List Bytes} {memory : Bytes}
    {call : CodecCall} {next : Codec}
    (hstep : (Codec.machine fec).step (Codec.holding x n collected memory) call = some next) :
    next = Codec.holding x n (collected ++ (encoding fec x n).adds call)
        (memory ++ (decoding fec x n).adds call) ∧
      call.Defined x := by
  simp only [Codec.machine, Option.map_eq_some_iff, Prod.exists] at hstep
  rcases hstep with ⟨result, after, hcall, rfl⟩
  cases call with
  | encode data =>
      rw [call_encode hx hle, Option.some.injEq, Prod.mk.injEq] at hcall
      constructor
      · rw [← hcall.2]
        simp [decoding]
      · trivial
  | decode blocks map lostNum =>
      rw [call_decode, Option.map_eq_some_iff] at hcall
      rcases hcall with ⟨data, hanswer, heq⟩
      rw [Accumulator.answer_eq_some_iff] at hanswer
      rw [Prod.mk.injEq] at heq
      constructor
      · rw [← heq.2, ← hanswer.2]
        simp [encoding]
      · exact (decoding_returns_iff blocks map lostNum).mp hanswer.1

theorem run_holding (hx : 0 < x) (hle : x ≤ n) {collected : List Bytes} {memory : Bytes}
    {history : List CodecCall} {codec : Codec}
    (hrun : (Codec.machine fec).run (Codec.holding x n collected memory) history = some codec) :
    codec = Codec.holding x n ((encoding fec x n).after collected history)
        ((decoding fec x n).after memory history) ∧
      ∀ call ∈ history, call.Defined x := by
  induction history generalizing collected memory with
  | nil =>
      rw [PartialMachine.run_nil, Option.some.injEq] at hrun
      exact ⟨hrun.symm, fun call hmem => absurd hmem List.not_mem_nil⟩
  | cons call rest ih =>
      rcases PartialMachine.run_cons_eq_some.mp hrun with ⟨next, hstep, hrest⟩
      rcases step_holding hx hle hstep with ⟨rfl, hdefined⟩
      rcases ih hrest with ⟨hcodec, hothers⟩
      constructor
      · rw [hcodec, Accumulator.after_cons, Accumulator.after_cons]
      · intro other hmem
        rcases List.mem_cons.mp hmem with rfl | hmem'
        · exact hdefined
        · exact hothers other hmem'

theorem encoding_adds_eq_nil_iff (hx : 0 < x) (hle : x ≤ n) (earlier : CodecCall) (data : Bytes) :
    (encoding fec x n).adds earlier = [] ↔ ¬ earlier.Disturbs x (.encode data) := by
  cases earlier with
  | encode old =>
      have hpushed := encodeAdds_ne_nil hx hle fec old
      simp [encoding, CodecCall.Disturbs, hpushed]
  | decode => simp [encoding, CodecCall.Disturbs]

theorem Fec.FillsBuffers.decoding_adds_eq_nil_iff (hfills : fec.FillsBuffers)
    {earlier : CodecCall} (hdefined : earlier.Defined x) (blocks : List Bytes) (map : List Bool)
    (lostNum : ℕ) :
    (decoding fec x n).adds earlier = [] ↔
      ¬ earlier.Disturbs x (.decode blocks map lostNum) := by
  cases earlier with
  | encode => simp [decoding, CodecCall.Disturbs]
  | decode old flags lost =>
      have hsome := (decodeAdds_isSome_iff fec n old).mpr hdefined
      rcases Option.isSome_iff_exists.mp hsome with ⟨data, hdata⟩
      have hlength := hfills.length_decodeAdds hdata
      rw [← List.length_eq_zero_iff]
      simp [decoding, CodecCall.Disturbs, hdata, hlength]

/-- A new object gives the blocks or the data of one value. -/
theorem Fec.FillsBuffers.oneValue_new (hfills : fec.FillsBuffers) (hx : 0 < x) (hle : x ≤ n)
    {call : CodecCall} {result : CodecResult}
    (hresult : ((Codec.new x n).call fec call).map Prod.fst = some result) :
    result.OneValue x n call := by
  change ((Codec.holding x n [] []).call fec call).map Prod.fst = some result at hresult
  cases call with
  | encode data =>
      rw [result_encode hx hle, Option.some.injEq] at hresult
      rw [← hresult]
      unfold Accumulator.answer encoding encodeAdds
      by_cases hencodable : Encodable x data
      · simp [hencodable, CodecResult.OneValue, length_shards]
      · simp [hencodable, CodecResult.OneValue]
  | decode blocks map lostNum =>
      rw [result_decode, Option.map_eq_some_iff] at hresult
      rcases hresult with ⟨data, hanswer, rfl⟩
      rw [Accumulator.answer_eq_some_iff] at hanswer
      rcases hanswer with ⟨hreturns, rfl⟩
      rcases Option.isSome_iff_exists.mp hreturns with ⟨data, hdata⟩
      have hlength := hfills.length_decodeAdds hdata
      simpa [decoding, CodecResult.OneValue, hdata] using hlength

theorem Fec.FillsBuffers.fresh_iff (hfills : fec.FillsBuffers) (hx : 0 < x) (hle : x ≤ n)
    {history : List CodecCall} {codec : Codec}
    (hrun : (Codec.machine fec).run (Codec.new x n) history = some codec) (call : CodecCall) :
    (codec.call fec call).map Prod.fst = ((Codec.new x n).call fec call).map Prod.fst ↔
      Unaffected x history call := by
  rcases run_holding hx hle hrun with ⟨rfl, hdefined⟩
  change _ = ((Codec.holding x n [] []).call fec call).map Prod.fst ↔ _
  rw [Unaffected, imp_iff_not_or]
  cases call with
  | encode data =>
      rw [result_encode hx hle, result_encode hx hle, Option.some.injEq,
        CodecResult.encoded.injEq, Accumulator.answer_after_iff]
      apply or_congr
      · exact decide_eq_false_iff_not
      · exact forall₂_congr fun earlier _ => encoding_adds_eq_nil_iff hx hle earlier data
  | decode blocks map lostNum =>
      have hinjective : Function.Injective CodecResult.decoded :=
        fun data data' heq => CodecResult.decoded.inj heq
      rw [result_decode, result_decode, (Option.map_injective hinjective).eq_iff,
        Accumulator.answer_after_iff]
      apply or_congr
      · rw [← Bool.not_eq_true, decoding_returns_iff]
        rfl
      · apply forall₂_congr
        intro earlier hmem
        exact hfills.decoding_adds_eq_nil_iff (hdefined earlier hmem) blocks map lostNum

/-- A call on objects with a history is like one on new objects exactly when it
does not return or nothing of the history is in the member that it returns. -/
theorem codec_memoryless_iff (fec : Fec) (hfills : fec.FillsBuffers) (x n : ℕ) (hx : 0 < x)
    (hle : x ≤ n) (history : List CodecCall) (codec : Codec)
    (hrun : (Codec.machine fec).run (Codec.new x n) history = some codec) (call : CodecCall) :
    Memoryless fec x n codec call ↔ Unaffected x history call := by
  rw [← hfills.fresh_iff hx hle hrun call]
  constructor
  · exact Memoryless.fresh
  · intro hsame
    constructor
    · exact hsame
    · intro result after hcall
      rw [hcall, Option.map_some] at hsame
      exact hfills.oneValue_new hx hle hsame.symm

end Histories

/-- A code with one primary block: every check block and every output is a copy. -/
def copying : Fec where
  encode := fun _ _ src _ _ => (src[0]?).getD []
  decode := fun k _ inpkts index sz =>
    (index.filter (k ≤ ·)).map fun _ => ((inpkts[0]?).getD []).takeD sz 0

theorem fillsBuffers_copying : copying.FillsBuffers := by
  intro k n inpkts index sz
  simp [copying]

/-- The encoder has collected the blocks of a value, and the decoder no byte. -/
theorem codec_memoryless_iff_encoded :
    ∃ codec, (Codec.machine copying).run (Codec.new 1 2)
        [.encode [7], .decode [[], []] [true, false] 1] = some codec ∧
      Memoryless copying 1 2 codec (.decode [[8], []] [true, false] 1) ∧
      ¬ Memoryless copying 1 2 codec (.encode [8]) := by
  have hrun : (Codec.machine copying).run (Codec.new 1 2)
      [.encode [7], .decode [[], []] [true, false] 1] =
        some (Codec.holding 1 2 [[7], [7]] []) := rfl
  have hmemoryless := codec_memoryless_iff copying fillsBuffers_copying 1 2 (by decide)
    (by decide) _ _ hrun
  refine ⟨_, hrun, (hmemoryless _).mpr (by decide), ?_⟩
  rw [hmemoryless]
  decide

/-- The second call returns the blocks, or the data, of both values. -/
theorem codec_remembers :
    ∃ codec, (Codec.machine copying).run (Codec.new 1 2)
        [.encode [7], .decode [[7], []] [true, false] 1] = some codec ∧
      (codec.call copying (.encode [8])).map Prod.fst =
        some (.encoded (some [[7], [7], [8], [8]])) ∧
      (codec.call copying (.decode [[8], []] [true, false] 1)).map Prod.fst =
        some (.decoded [7, 8]) ∧
      ¬ Memoryless copying 1 2 codec (.encode [8]) ∧
      ¬ Memoryless copying 1 2 codec (.decode [[8], []] [true, false] 1) := by
  refine ⟨Codec.holding 1 2 [[7], [7]] [7], rfl, by decide, by decide, ?_, ?_⟩
  · intro hmemoryless
    exact absurd hmemoryless.fresh (by decide)
  · intro hmemoryless
    exact absurd hmemoryless.fresh (by decide)

/-! ## The objects of a proposer -/

def Proposer.codec (proposer : Proposer) : Codec := ⟨proposer.rsEncoder, proposer.rsDecoder⟩

section Proposers

variable {fec : Fec} {codec : Codec}

theorem leads_encode {data : Bytes} {blocks : List Bytes} {encoder : RSEncoder}
    (hencode : codec.encoder.rsEncode fec data = some (blocks, encoder)) :
    (Codec.machine fec).Leads codec { codec with encoder } := by
  have hstep : (Codec.machine fec).step codec (.encode data) = some { codec with encoder } := by
    simp [Codec.machine, Codec.call, hencode]
  exact .single hstep

theorem leads_decode {blocks : List Bytes} {map : List Bool} {lostNum : ℕ} {data : Bytes}
    {decoder : RSDecoder}
    (hdecode : codec.decoder.rsDecode fec blocks map lostNum = some (data, decoder)) :
    (Codec.machine fec).Leads codec { codec with decoder } := by
  have hstep : (Codec.machine fec).step codec (.decode blocks map lostNum) =
      some { codec with decoder } := by
    simp [Codec.machine, Codec.call, hdecode]
  exact .single hstep

variable {view : View}

theorem Proposer.fillShards_leads {proposer after : Proposer}
    (hfill : proposer.fillShards view = some after) :
    (Codec.machine view.config.fec).Leads proposer.codec after.codec := by
  unfold fillShards at hfill
  split at hfill
  next =>
    simp only [Option.bind_eq_bind, Option.bind_eq_some_iff, Prod.exists, pure,
      Option.some.injEq] at hfill
    rcases hfill with ⟨blocks, encoder, hencode, rfl⟩
    exact leads_encode hencode
  next =>
    rw [Option.some.injEq] at hfill
    rw [hfill]
    exact .refl _

theorem Proposer.chooseValue_leads {proposer after : Proposer} {ack : AckType}
    (hchoose : proposer.chooseValue view = some (ack, after)) :
    (Codec.machine view.config.fec).Leads proposer.codec after.codec := by
  unfold chooseValue at hchoose
  split at hchoose
  next =>
    rw [Option.some.injEq, Prod.mk.injEq] at hchoose
    rw [← hchoose.2]
    exact .refl _
  next highest hmax =>
    split at hchoose
    next =>
      rcases recoverValue_eq_some.mp hchoose with ⟨blocks, index, lost, _, ⟨_, _, rfl⟩ |
        ⟨_, _, data, decoder, shards, encoder, hdecode, hencode, rfl⟩⟩
      · exact .refl _
      · have hdecoded : (Codec.machine view.config.fec).Leads proposer.codec
            { proposer.codec with decoder } := leads_decode hdecode
        exact hdecoded.trans (leads_encode hencode)
    next =>
      rw [Option.some.injEq, Prod.mk.injEq] at hchoose
      rw [← hchoose.2]
      exact .refl _

theorem Session.step_leads {session next : Session} {input : SessionInput}
    (hstep : session.step view input = some next) :
    (Codec.machine view.config.fec).Leads session.proposer.codec next.proposer.codec := by
  cases input with
  | promise msg =>
      cases promise_cases hstep with
      | drops hold hnext =>
          rw [hnext]
          exact .refl _
      | waits hballot hvalue hnext =>
          rw [hnext]
          exact .refl _
      | restarts hballot hvalue hnext =>
          rw [hnext]
          exact .refl _
      | @continues value after hballot hvalue hack hafter henter =>
          have hchosen := Proposer.chooseValue_leads (Proposer.handleMsgPromise_continue hack).2
          change (Codec.machine view.config.fec).Leads session.proposer.codec after.codec at hchosen
          unfold enterPhaseII at henter
          dsimp only at henter
          split at henter
          next =>
            simp only [Option.bind_eq_bind, Option.bind_eq_some_iff, Prod.exists, pure,
              Option.some.injEq] at henter
            rcases henter with ⟨msgs, sent, haccept, rfl⟩
            exact hchosen.trans
              (Proposer.fillShards_leads (Proposer.rsMsgAccept_cache haccept).1)
          next =>
            rw [Option.some.injEq] at henter
            rw [← henter]
            exact hchosen
  | accepted msg =>
      cases accepted_cases hstep with
      | stays hnext =>
          rw [hnext]
          exact .refl _
      | restarts hballot hvalue hnext =>
          rw [hnext]
          exact .refl _

/-- Whatever a proposer lives through, its encoder and decoder are those that some
history of calls has made of new ones. -/
theorem Session.run_leads {value : PropValue} {skipPhaseI : Bool} {inputs : List SessionInput}
    {final : Session}
    (hrun : (machine view).run (start view value skipPhaseI) inputs = some final) :
    (Codec.machine view.config.fec).Leads
      (.new view.config.rsParams.x view.config.rsParams.n) final.proposer.codec := by
  have hstart : (start view value skipPhaseI).proposer.codec =
      .new view.config.rsParams.x view.config.rsParams.n := by
    cases skipPhaseI <;> rfl
  rw [← hstart]
  exact PartialMachine.leads_of_run (fun session => session.proposer.codec)
    (fun _ _ _ hstep => step_leads hstep) hrun

end Proposers

end NDNPaxos
