import HashCompress.CodeWidths

/-!
# Sequences of calls on one compressor object

What an object remembers from earlier calls. `compress` overwrites every field that it works from
but one: the phrase code width, which only `load_dictionaries` computes.
-/
namespace HashCompress.Compressor

open BitList BitIO TallyMap KeyTrie CodeTables TokenCodec DictionaryFile TokenLoop PhraseMining
open PhraseSegment Tokenizer

/-- What a caller of `compress` sees: the result and the two files. -/
def CompressRun.output (run : CompressRun) :
    CompressStatus × Option (List UInt8) × Option (List UInt8) :=
  (run.status, run.engDict, run.compressed)

lemma CompressRun.output_eq_iff {run run' : CompressRun} : run.output = run'.output ↔
    run.status = run'.status ∧ run.engDict = run'.engDict ∧ run.compressed = run'.compressed := by
  simp only [CompressRun.output, Prod.mk.injEq]

inductive Call where
  | compress (ch : Choices) (files : CompressFiles)
  | decompress (u : Uninit) (fuel : ℕ) (files : DecompressFiles)

/-- The object that a call leaves behind; `none` if the call does not return. -/
def Call.run : Call → TwoTierTextCompressor → Option TwoTierTextCompressor
  | .compress ch files, c =>
    match (Compressor.compress ch files c).status with
    | .success | .failed _ => some (Compressor.compress ch files c).object
    | .undefinedIndex | .diverges => none
  | .decompress u fuel files, c => (Compressor.decompress u fuel files c).map DecompressRun.object

/-- The object after a sequence of calls. -/
def runCalls (calls : List Call) (c : TwoTierTextCompressor) : Option TwoTierTextCompressor :=
  calls.foldlM (fun c call => call.run c) c

/-- The number of phrases that the object has loaded last, if it had loaded `n` before. -/
def Call.phrasesLoaded (n : ℕ) : Call → ℕ
  | .compress _ _ => n
  | .decompress u _ files =>
    match files.dictionary with
    | none => n
    | some text => (loadDictionaries u text).2.length

def phrasesLoaded (calls : List Call) : ℕ := calls.foldl Call.phrasesLoaded 0

/-- `compress` gives the same result and the same files as on a new object. -/
def IgnoresState (c : TwoTierTextCompressor) : Prop :=
  ∀ ch files, (compress ch files c).output = (compress ch files {}).output

/-! ### What `compress` reads and keeps of the object -/

lemma compress_none {ch : Choices} {files : CompressFiles} (hinput : files.input = none)
    (c : TwoTierTextCompressor) :
    (compress ch files c).output = (.failed .inputFile, none, none) ∧
      (compress ch files c).object.phraseMaxBitLength = c.phraseMaxBitLength := by
  unfold compress
  rw [hinput]
  exact ⟨rfl, rfl⟩

lemma writeFiles_object (files : CompressFiles) (tokens : List Token) (c : TwoTierTextCompressor) :
    (writeFiles files tokens c).object = c := by
  unfold writeFiles
  cases files.engDictWritable with
  | false => rfl
  | true =>
    cases writeTokens (encodeTables c) (writeLocalDictionary c.localDecode {}) tokens with
    | error e => rfl
    | ok bw => cases files.outputWritable <;> rfl

lemma finish_phraseWidth (ch : Choices) (files : CompressFiles) (rawTokens : List Word)
    (c : TwoTierTextCompressor) :
    (finish ch files rawTokens c).object.phraseMaxBitLength = c.phraseMaxBitLength := by
  unfold finish
  cases printPhraseStats ch.sortPhrases c with
  | none => rfl
  | some stats =>
    dsimp only
    split_ifs
    · rfl
    · rw [writeFiles_object]
      rfl

lemma compress_phraseWidth (ch : Choices) (files : CompressFiles) (c : TwoTierTextCompressor) :
    (compress ch files c).object.phraseMaxBitLength = c.phraseMaxBitLength := by
  cases hinput : files.input with
  | none => exact (compress_none hinput c).2
  | some text =>
    rw [compress_some hinput]
    split_ifs
    · rfl
    · rfl
    · exact finish_phraseWidth ch files (tokenizeRaw text) _

/-- The local dictionary of an earlier call is overwritten before it is used. -/
lemma finish_output_local (ch : Choices) (files : CompressFiles) (rawTokens : List Word)
    (c : TwoTierTextCompressor) (encode : WordMap) (decode : List Word) (width : ℕ) :
    (finish ch files rawTokens
      { c with localEncode := encode, localDecode := decode, localMaxBitLength := width }).output =
      (finish ch files rawTokens c).output := by
  have hstats : printPhraseStats ch.sortPhrases
      { c with localEncode := encode, localDecode := decode, localMaxBitLength := width } =
      printPhraseStats ch.sortPhrases c := rfl
  unfold finish
  rw [hstats]
  cases printPhraseStats ch.sortPhrases c with
  | none => rfl
  | some stats =>
    dsimp only
    split_ifs
    · rfl
    · rfl

/-- What `learn` leaves depends on the object only through the local dictionary, which is not used
any more, and the phrase width. -/
lemma learn_resetFor (ch : Choices) (rawTokens main : List Word) (c : TwoTierTextCompressor) :
    learn ch rawTokens main (resetFor rawTokens c) =
      { learn ch rawTokens main (resetFor rawTokens { phraseMaxBitLength := c.phraseMaxBitLength }) with
        localEncode := c.localEncode
        localDecode := c.localDecode
        localMaxBitLength := c.localMaxBitLength } := rfl

lemma compress_output (ch : Choices) (files : CompressFiles) (c : TwoTierTextCompressor) :
    (compress ch files c).output =
      (compress ch files { phraseMaxBitLength := c.phraseMaxBitLength }).output := by
  cases hinput : files.input with
  | none => rw [(compress_none hinput c).1, (compress_none hinput _).1]
  | some text =>
    rw [compress_some hinput, compress_some hinput]
    split_ifs
    · rfl
    · rfl
    · rw [learn_resetFor]
      exact finish_output_local ch files (tokenizeRaw text) _ _ _ _

lemma ignoresState_of_phraseWidth {c : TwoTierTextCompressor} (hwidth : c.phraseMaxBitLength = 0) :
    IgnoresState c := by
  intro ch files
  rw [compress_output, hwidth]

/-! ### The width that a call leaves behind -/

lemma load_phraseWidth (u : Uninit) (text : List UInt8) (c : TwoTierTextCompressor) :
    (load u text c).phraseMaxBitLength = codeWidth (loadDictionaries u text).2.length := rfl

lemma decompress_object {u : Uninit} {fuel : ℕ} {files : DecompressFiles}
    {c : TwoTierTextCompressor} {run : DecompressRun} (h : decompress u fuel files c = some run) :
    run.object = match files.dictionary with
      | none => c
      | some text => load u text c := by
  unfold decompress at h
  cases hdict : files.dictionary with
  | none =>
    simp only [hdict, Option.some.injEq] at h
    rw [← h]
  | some text =>
    cases hdata : files.compressed with
    | none =>
      simp only [hdict, hdata, Option.some.injEq] at h
      rw [← h]
    | some buffer =>
      simp only [hdict, hdata] at h
      split at h
      · obtain ⟨e, -, rfl⟩ := Option.map_eq_some_iff.mp h
        rfl
      · cases h
        rfl

lemma Call.run_phraseWidth {call : Call} {c c' : TwoTierTextCompressor} {n : ℕ}
    (hwidth : c.phraseMaxBitLength = codeWidth n) (hrun : call.run c = some c') :
    c'.phraseMaxBitLength = codeWidth (call.phrasesLoaded n) := by
  cases call with
  | compress ch files =>
    have hobject : (Compressor.compress ch files c).object = c' := by
      unfold Call.run at hrun
      dsimp only at hrun
      split at hrun
      · exact Option.some.inj hrun
      · exact Option.some.inj hrun
      · cases hrun
      · cases hrun
    rw [← hobject, compress_phraseWidth, hwidth]
    rfl
  | decompress u fuel files =>
    obtain ⟨run, hdecompress, rfl⟩ := Option.map_eq_some_iff.mp hrun
    rw [decompress_object hdecompress]
    unfold Call.phrasesLoaded
    dsimp only
    cases files.dictionary with
    | none => exact hwidth
    | some text => exact load_phraseWidth u text c

/-- Along every sequence of calls the phrase width is that of the phrases loaded last. -/
lemma runCalls_phraseWidth {calls : List Call} {c c' : TwoTierTextCompressor} {n : ℕ}
    (hwidth : c.phraseMaxBitLength = codeWidth n) (hrun : runCalls calls c = some c') :
    c'.phraseMaxBitLength = codeWidth (calls.foldl Call.phrasesLoaded n) := by
  induction calls generalizing c n with
  | nil =>
    cases hrun
    exact hwidth
  | cons call calls ih =>
    rw [runCalls, List.foldlM_cons] at hrun
    obtain ⟨next, hnext, hrest⟩ := Option.bind_eq_some_iff.mp hrun
    exact ih (Call.run_phraseWidth hwidth hnext) hrest

/-! ### A stale width shows -/

/-- A run that succeeds on a new object writes the same tokens with the width of an older one. -/
lemma compress_phraseWidth_success {ch : Choices} {files : CompressFiles} {text : List UInt8}
    (hinput : files.input = some text) (hsuccess : (compress ch files {}).status = .success)
    (width : ℕ) :
    compress ch files { phraseMaxBitLength := width } =
      writeFiles files
        (processWithPhrases (compress ch files {}).object.phraseTrieRoot (tokenizeRaw text))
        { (compress ch files {}).object with phraseMaxBitLength := width } := by
  obtain ⟨text', hinput', -, hfinish⟩ := compress_eq_finish hsuccess
  obtain rfl : text = text' := Option.some.inj (hinput.symm.trans hinput')
  rw [hfinish] at hsuccess ⊢
  rw [hfinish]
  set c := learn ch (tokenizeRaw text) (wordsFor ch files text) (resetFor (tokenizeRaw text) {})
    with hc
  have hlearn : learn ch (tokenizeRaw text) (wordsFor ch files text)
      (resetFor (tokenizeRaw text) { phraseMaxBitLength := width }) =
      { c with phraseMaxBitLength := width } := rfl
  obtain ⟨hstats, hlocal⟩ := finish_success hsuccess
  -- neither the statistics nor the tokens depend on the width
  have hstats' : (printPhraseStats ch.sortPhrases { c with phraseMaxBitLength := width }).isSome :=
    hstats
  rw [finish_eq_writeFiles hstats hlocal, writeFiles_object, hlearn,
    finish_eq_writeFiles hstats' hlocal]
  rfl

lemma compress_threeWords : (compress stableChoices threeWordFiles {}).status = .success := by
  decide +kernel

lemma writeFiles_ok {files : CompressFiles} {tokens : List Token} {c : TwoTierTextCompressor}
    {bw : BitWriter} (hdict : files.engDictWritable = true) (hout : files.outputWritable = true)
    (hwrite : writeTokens (encodeTables c) (writeLocalDictionary c.localDecode {}) tokens = .ok bw) :
    writeFiles files tokens c = ⟨.success, c, some (writeDictionaries c.mainDecode c.phraseDecode),
      some bw.flush.buffer⟩ := by
  unfold writeFiles
  simp only [hdict, hout, hwrite, if_true]

/-- The text `a b c` is one phrase, the one with number 1. -/
lemma output_threeWords (width : ℕ) :
    (compress stableChoices threeWordFiles { phraseMaxBitLength := width }).status = .success ∧
      (compress stableChoices threeWordFiles { phraseMaxBitLength := width }).compressed =
        some ((((({} : BitWriter).writeBits 0 16).writeBits 2 2).writeBits 1 width).flush.buffer) := by
  have htokens : processWithPhrases (compress stableChoices threeWordFiles {}).object.phraseTrieRoot
      (tokenizeRaw [0x61, 32, 0x62, 32, 0x63]) = [.phrase 1] := by decide +kernel
  have hlocal : (compress stableChoices threeWordFiles {}).object.localDecode = [] := by
    decide +kernel
  rw [compress_phraseWidth_success rfl compress_threeWords, htokens]
  generalize (compress stableChoices threeWordFiles {}).object = c at hlocal ⊢
  have hwrite : writeTokens (encodeTables { c with phraseMaxBitLength := width })
      (writeLocalDictionary c.localDecode {}) [.phrase 1] =
      .ok (((({} : BitWriter).writeBits 0 16).writeBits 2 2).writeBits 1 width) := by
    rw [hlocal]
    rfl
  rw [writeFiles_ok rfl rfl hwrite]
  exact ⟨rfl, rfl⟩

lemma true_mem_natBits_one {width : ℕ} (h : width ≠ 0) : true ∈ natBits width 1 := by
  obtain ⟨n, rfl⟩ := Nat.exists_eq_succ_of_ne_zero h
  have hsplit := natBits_add n 1 1
  rw [hsplit]
  simp [natBits]

/-- With a positive width the last bit of the phrase number is a one, and without it there is none
behind the type bits. -/
lemma compressed_threeWords_ne {width : ℕ} (h : width ≠ 0) :
    (compress stableChoices threeWordFiles { phraseMaxBitLength := width }).compressed ≠
      (compress stableChoices threeWordFiles {}).compressed := by
  intro heq
  have hfresh := (output_threeWords 0).2
  rw [(output_threeWords width).2] at heq
  have hbuffer := Option.some.inj (heq.trans hfresh)
  have hbits := congrArg bytesBits hbuffer
  set tagged := (({} : BitWriter).writeBits 0 16).writeBits 2 2 with htagged
  have hok : tagged.Ok :=
    BitWriter.writeBits_ok (BitWriter.writeBits_ok BitWriter.ok_empty 0 16) 2 2
  rw [BitWriter.bytesBits_flush (BitWriter.writeBits_ok hok 1 width),
    BitWriter.bytesBits_flush (BitWriter.writeBits_ok hok 1 0),
    BitWriter.bits_writeBits hok, BitWriter.bits_writeBits hok, List.append_assoc,
    List.append_assoc] at hbits
  have htail := List.append_cancel_left hbits
  have hmem : true ∈ natBits 0 (1 : UInt32).toNat ++ List.replicate
      ((8 - (tagged.bits ++ natBits 0 (1 : UInt32).toNat).length % 8) % 8) false := by
    rw [← htail]
    exact List.mem_append_left _ (true_mem_natBits_one h)
  simp [natBits] at hmem

lemma phraseWidth_of_ignoresState {c : TwoTierTextCompressor} (h : IgnoresState c) :
    c.phraseMaxBitLength = 0 := by
  by_contra hwidth
  have hout := h stableChoices threeWordFiles
  rw [compress_output, CompressRun.output_eq_iff] at hout
  exact compressed_threeWords_ne hwidth hout.2.2

/-- After every sequence of calls that return, `compress` works as on a new object for all word
lists, texts and orders of traversal exactly if the last dictionary file that the object has loaded
held at most one phrase. -/
theorem ignoresState_iff (calls : List Call) (c : TwoTierTextCompressor)
    (hrun : runCalls calls {} = some c) : IgnoresState c ↔ phrasesLoaded calls ≤ 1 := by
  have hwidth : c.phraseMaxBitLength = codeWidth (phrasesLoaded calls) :=
    runCalls_phraseWidth (codeWidth_eq_zero_iff.mpr (Nat.zero_le 1)).symm hrun
  rw [← codeWidth_eq_zero_iff, ← hwidth]
  exact ⟨phraseWidth_of_ignoresState, ignoresState_of_phraseWidth⟩

/-- A successful `compress` and a `decompress` whose dictionary file cannot be opened. -/
def harmlessCalls : List Call :=
  [.compress stableChoices threeWordFiles, .decompress zeroUninit 1 ⟨none, none, true⟩]

theorem ignoresState_harmlessCalls : ∃ c, runCalls harmlessCalls {} = some c ∧ IgnoresState c := by
  have hrun : runCalls harmlessCalls {} = some (compress stableChoices threeWordFiles {}).object := by
    have hfirst : Call.run (.compress stableChoices threeWordFiles) {} =
        some (compress stableChoices threeWordFiles {}).object := by
      unfold Call.run
      dsimp only
      rw [compress_threeWords]
    rw [runCalls, harmlessCalls, List.foldlM_cons, hfirst]
    rfl
  exact ⟨_, hrun, (ignoresState_iff harmlessCalls _ hrun).mpr (by decide)⟩

/-- A `decompress` that loads two phrases and then finds no compressed file. -/
def staleCalls : List Call :=
  [.decompress zeroUninit 1 ⟨some (writeDictionaries [[0x61], [0x62]] [⟨[0, 1], 1, false, 0⟩,
    ⟨[1, 0], 1, false, 0⟩]), none, true⟩]

theorem not_ignoresState_staleCalls : ∃ c, runCalls staleCalls {} = some c ∧
    (compress stableChoices threeWordFiles c).status = .success ∧
    (compress stableChoices threeWordFiles c).output ≠
      (compress stableChoices threeWordFiles {}).output := by
  have hload : (loadDictionaries zeroUninit (writeDictionaries [[0x61], [0x62]]
      [⟨[0, 1], 1, false, 0⟩, ⟨[1, 0], 1, false, 0⟩])).2.length = 2 :=
    (loadDictionaries_written zeroUninit (by decide) (by decide) (by decide) (by decide)).2
  refine ⟨load zeroUninit (writeDictionaries [[0x61], [0x62]]
    [⟨[0, 1], 1, false, 0⟩, ⟨[1, 0], 1, false, 0⟩]) {}, rfl, ?_⟩
  have hwidth := load_phraseWidth zeroUninit (writeDictionaries [[0x61], [0x62]]
    [⟨[0, 1], 1, false, 0⟩, ⟨[1, 0], 1, false, 0⟩]) {}
  rw [hload] at hwidth
  generalize load zeroUninit _ {} = c at hwidth ⊢
  have hout := compress_output stableChoices threeWordFiles c
  refine ⟨?_, fun heq => ?_⟩
  · rw [(CompressRun.output_eq_iff.mp hout).1]
    exact (output_threeWords _).1
  · have hpos : c.phraseMaxBitLength ≠ 0 := by
      rw [hwidth]
      decide
    rw [hout, CompressRun.output_eq_iff] at heq
    exact compressed_threeWords_ne hpos heq.2.2

end HashCompress.Compressor
