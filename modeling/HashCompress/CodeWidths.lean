import HashCompress.SuccessfulRun
import HashCompress.RoundTrip

/-!
# Code widths

The widths that `compress` writes with are computed at three different points: the main width before
the phrase passes, the local width after them, and the phrase width not at all. `decompress` computes
all three from what it reads.
-/
namespace HashCompress.Compressor

open BitList BitIO WordText TallyMap KeyTrie CodeTables TokenCodec DictionaryFile TokenLoop
open PhraseMining PhraseSegment Tokenizer

def CompressFiles.rawTokens (files : CompressFiles) : List Word :=
  tokenizeRaw (files.input.getD [])

/-- The tables of `decompress` on the two files of a run. -/
def readerTables (u : Uninit) (run : CompressRun) : DecodeTables :=
  (loopStart u (run.engDict.getD []) (run.compressed.getD [])).1

/-- The widths of a run are those of its reader, and every code it wrote fits its width. -/
structure WidthsAgree (u : Uninit) (rawTokens : List Word) (run : CompressRun) : Prop where
  main : run.object.mainMaxBitLength = (readerTables u run).mainWidth
  rare : run.object.localMaxBitLength = (readerTables u run).localWidth
  phrase : run.object.phraseMaxBitLength = (readerTables u run).phraseWidth
  codes : ∀ token ∈ processWithPhrases run.object.phraseTrieRoot rawTokens, ∀ code width,
    tokenCode (encodeTables run.object) token = some (code, width) → code.toNat < 2 ^ width

/-- The words of the list and those that the phrases add. -/
def knownWords (dictWords rawTokens : List Word) : ℕ :=
  dictWords.length + (phraseWordSet rawTokens \ dictWords.toFinset).card

/-- At most one phrase, words of phrases that do not make the main codes longer, and a number of
local words that fits the header. -/
structure WidthsStay (dictWords rawTokens : List Word) : Prop where
  phrases : phraseCount rawTokens ≤ 1
  main : codeWidth dictWords.length = codeWidth (knownWords dictWords rawTokens)
  main_lt : knownWords dictWords rawTokens < 2 ^ 32
  rare : (rawTokens.toFinset \ (dictWords.toFinset ∪ phraseWordSet rawTokens)).card < 2 ^ 16

/-! ### Comparing widths -/

lemma codeWidth_le_iff {size width : ℕ} : codeWidth size ≤ width ↔ size ≤ 2 ^ width := by
  rw [codeWidth_eq_clog]
  exact Nat.clog_le_iff_le_pow (by omega)

lemma codeWidth_eq_zero_iff {size : ℕ} : codeWidth size = 0 ↔ size ≤ 1 := by
  rw [← Nat.le_zero, codeWidth_le_iff, pow_zero]

/-- A size taken modulo 2^16 has the same width only if it is smaller. -/
lemma codeWidth_eq_mod_iff {size : ℕ} : codeWidth size = codeWidth (size % 2 ^ 16) ↔ size < 2 ^ 16 := by
  constructor
  · intro heq
    by_contra hge
    have hmod : codeWidth (size % 2 ^ 16) ≤ 16 :=
      codeWidth_le_iff.mpr (Nat.mod_lt _ (Nat.two_pow_pos 16)).le
    have hsize : size ≤ 2 ^ 16 := codeWidth_le_iff.mp (heq.trans_le hmod)
    obtain rfl : size = 2 ^ 16 := by omega
    have hzero : codeWidth (2 ^ 16 % 2 ^ 16) = 0 := codeWidth_eq_zero_iff.mpr (by decide)
    rw [hzero, codeWidth_eq_zero_iff] at heq
    omega
  · intro hlt
    rw [Nat.mod_eq_of_lt hlt]

/-! ### The sizes of the dictionaries -/

section Sizes

variable {ch : Choices} {text : List UInt8} {main : List Word} {run : CompressRun}

lemma rawTokens_isToken {text : List UInt8} : ∀ w ∈ tokenizeRaw text, IsToken w :=
  fun _ hw => tokenizeRaw_isToken hw

lemma mem_rareWords {mainEncode : WordMap} {tokens : List Token} {w : Word} :
    w ∈ rareWords mainEncode tokens ↔ .word w ∈ tokens ∧ w ∉ mainEncode := by
  unfold rareWords
  rw [List.mem_filterMap]
  constructor
  · rintro ⟨token, ht, htok⟩
    cases token with
    | word v =>
      dsimp only at htok
      split_ifs at htok with hv
      cases htok
      exact ⟨ht, hv⟩
    | phrase phraseId => cases htok
    | wildcard v phraseId => cases htok
  · rintro ⟨ht, hw⟩
    exact ⟨.word w, ht, if_neg hw⟩

lemma mem_rareWords_minePhrases {text : List UInt8} {main : MainDict} (h : main.Coherent) (o : Orders)
    (w : Word) : w ∈ rareWords (minePhrases o (tokenizeRaw text) main).main.encode
        (processWithPhrases (minePhrases o (tokenizeRaw text) main).phraseTrieRoot
          (tokenizeRaw text)) ↔
      w ∈ tokenizeRaw text ∧ ¬ (w ∈ main.decode ∨ w ∈ phraseWordSet (tokenizeRaw text)) := by
  have htok : ∀ v ∈ tokenizeRaw text, IsToken v := rawTokens_isToken
  have hsizes := minePhrases_sizes htok o h
  have hkeys := (mined_minePhrases htok h o).coherent.keys w
  rw [mem_rareWords, hkeys, ← hsizes.2.2 w]
  constructor
  · rintro ⟨ht, hnew⟩
    exact ⟨(processLoop_tokens ht).1 w rfl, hnew⟩
  · rintro ⟨hw, hnew⟩
    exact ⟨word_mem_processLoop (fun p hend => path_known htok o h hend) le_rfl hw hnew,
      hnew⟩

lemma rareWords_minePhrases_length {text : List UInt8} {main : MainDict} (h : main.Coherent)
    (o : Orders) : (appendNew [] (rareWords (minePhrases o (tokenizeRaw text) main).main.encode
        (processWithPhrases (minePhrases o (tokenizeRaw text) main).phraseTrieRoot
          (tokenizeRaw text)))).length =
      ((tokenizeRaw text).toFinset \ (main.decode.toFinset ∪ phraseWordSet (tokenizeRaw text))).card := by
  have hset : (rareWords (minePhrases o (tokenizeRaw text) main).main.encode
      (processWithPhrases (minePhrases o (tokenizeRaw text) main).phraseTrieRoot
        (tokenizeRaw text))).toFinset =
      (tokenizeRaw text).toFinset \ (main.decode.toFinset ∪ phraseWordSet (tokenizeRaw text)) := by
    ext w
    simp [mem_rareWords_minePhrases h o w]
  rw [length_appendNew, hset]
  simp

variable (h : Succeeded ch text main run)
include h

lemma Succeeded.phraseSize : run.object.phraseDecode.length = phraseCount (tokenizeRaw text) := by
  rw [h.phraseDecode]
  exact (minePhrases_sizes rawTokens_isToken ch.orders (buildEncode_coherent main)).1

lemma Succeeded.mainSize : run.object.mainDecode.length = knownWords main (tokenizeRaw text) := by
  rw [h.mainDecode]
  exact (minePhrases_sizes rawTokens_isToken ch.orders (buildEncode_coherent main)).2.1

lemma Succeeded.mem_mainDecode (w : Word) :
    w ∈ run.object.mainDecode ↔ w ∈ main ∨ w ∈ phraseWordSet (tokenizeRaw text) := by
  rw [h.mainDecode]
  exact (minePhrases_sizes rawTokens_isToken ch.orders (buildEncode_coherent main)).2.2 w

lemma Succeeded.coherent : MainDict.Coherent ⟨run.object.mainEncode, run.object.mainDecode⟩ := by
  rw [h.mainEncode, h.mainDecode]
  exact (mined_minePhrases rawTokens_isToken (buildEncode_coherent main) ch.orders).coherent

/-- The local words are the words of the text that are in no phrase and not in the word list. -/
lemma Succeeded.mem_rareWords_iff (w : Word) :
    w ∈ rareWords run.object.mainEncode
        (processWithPhrases run.object.phraseTrieRoot (tokenizeRaw text)) ↔
      w ∈ tokenizeRaw text ∧ ¬ (w ∈ main ∨ w ∈ phraseWordSet (tokenizeRaw text)) := by
  rw [h.mainEncode, h.phraseTrieRoot]
  exact mem_rareWords_minePhrases (buildEncode_coherent main) ch.orders w

lemma Succeeded.localSize : run.object.localDecode.length =
    ((tokenizeRaw text).toFinset \ (main.toFinset ∪ phraseWordSet (tokenizeRaw text))).card := by
  rw [h.localDecode, h.mainEncode, h.phraseTrieRoot]
  exact rareWords_minePhrases_length (buildEncode_coherent main) ch.orders

/-! ### What the reader computes -/

lemma Succeeded.reader_localWidth (u : Uninit) :
    (readerTables u run).localWidth = codeWidth (run.object.localDecode.length % 2 ^ 16) := by
  obtain ⟨bw, hwrite, hcompressed⟩ := h.compressed
  have hheader := readLocalDictionary_length
    ((extends_writeLocalDictionary run.object.localDecode {}).trans (extends_writeTokens hwrite))
    h.local_lt
  have hwidth : (readerTables u run).localWidth =
      codeWidth (readLocalDictionary ⟨run.compressed.getD [], 0, 0⟩).1.length := rfl
  rw [hwidth, hcompressed, Option.getD_some, hheader]

lemma Succeeded.reader_mainWidth (u : Uninit) (hline : ∀ w ∈ main, w ≠ [] ∧ (10 : UInt8) ∉ w)
    (hmain : knownWords main (tokenizeRaw text) < 2 ^ 32)
    (hphrase : phraseCount (tokenizeRaw text) < 2 ^ 32) :
    (readerTables u run).mainWidth = codeWidth (knownWords main (tokenizeRaw text)) ∧
      (readerTables u run).phraseWidth = codeWidth (phraseCount (tokenizeRaw text)) := by
  have hlines : ∀ w ∈ run.object.mainDecode, w ≠ [] ∧ (10 : UInt8) ∉ w := by
    intro w hw
    rcases (h.mem_mainDecode w).mp hw with hw | hw
    · exact hline w hw
    · exact line_of_isToken (rawTokens_isToken w (phraseWordSet_subset hw))
  rw [← h.mainSize] at hmain ⊢
  rw [← h.phraseSize] at hphrase ⊢
  obtain ⟨hwords, hphrases⟩ := loadDictionaries_written u hmain hphrase
    (fun w hw => (hlines w hw).1) (fun w hw => (hlines w hw).2)
  have hload : (readerTables u run).mainWidth =
      codeWidth (loadDictionaries u (run.engDict.getD [])).1.length ∧
    (readerTables u run).phraseWidth =
      codeWidth (loadDictionaries u (run.engDict.getD [])).2.length := ⟨rfl, rfl⟩
  rw [hload.1, hload.2, h.engDict, Option.getD_some, hwords, hphrases]
  exact ⟨rfl, rfl⟩

/-! ### The codes that are written -/

lemma Succeeded.phraseId_lt (hmain : knownWords main (tokenizeRaw text) < 2 ^ 32)
    (hphrase : phraseCount (tokenizeRaw text) < 2 ^ 32) {phraseId : UInt32}
    (ht : .phrase phraseId ∈ processWithPhrases run.object.phraseTrieRoot (tokenizeRaw text)) :
    phraseId.toNat < phraseCount (tokenizeRaw text) := by
  obtain ⟨p, hend, rfl⟩ := (processLoop_tokens ht).2 phraseId rfl
  have htable := phraseTable_minePhrases rawTokens_isToken (buildEncode_coherent main) ch.orders
    ⟨hphrase.le, hmain.le⟩
  rw [← h.phraseSize, h.phraseDecode]
  rw [h.phraseTrieRoot] at hend ⊢
  by_cases hreg : Registered (tokenizeRaw text) p
  · obtain ⟨e, he, -⟩ := htable.plain p hreg
    exact (List.getElem?_eq_some_iff.mp he).1
  · have hstar := ((htable.ends p).mp hend).resolve_right hreg
    obtain ⟨e, he, -⟩ := htable.longer p hstar hreg
    exact (List.getElem?_eq_some_iff.mp he).1

lemma Succeeded.wordCode_lt (hmain : knownWords main (tokenizeRaw text) < 2 ^ 32)
    (hwidth : codeWidth main.length = codeWidth (knownWords main (tokenizeRaw text))) {w : Word}
    {code : UInt32} {width : ℕ}
    (hcode : wordCode (encodeTables run.object) w = some (code, width)) :
    code.toNat < 2 ^ width := by
  unfold wordCode at hcode
  cases hlookup : (encodeTables run.object).mainEncode.lookup w with
  | some found =>
    rw [hlookup] at hcode
    cases hcode
    have hindex := h.coherent.codes (h.mainSize.trans_le hmain.le) w code hlookup
    have hwide : (encodeTables run.object).mainWidth = codeWidth run.object.mainDecode.length := by
      rw [h.mainSize, ← hwidth]
      exact h.mainWidth
    rw [hwide]
    exact (List.getElem?_eq_some_iff.mp hindex).1.trans_le (le_two_pow_codeWidth _)
  | none =>
    rw [hlookup] at hcode
    obtain ⟨found, hlocal, heq⟩ := Option.map_eq_some_iff.mp hcode
    cases heq
    have hlookup : (buildEncode run.object.localDecode).lookup w = some code :=
      h.localEncode ▸ hlocal
    have hindex := (buildEncode_coherent run.object.localDecode).codes h.local_lt.le w code hlookup
    have hwide : (encodeTables run.object).localWidth = codeWidth run.object.localDecode.length :=
      h.localWidth
    rw [hwide]
    exact (List.getElem?_eq_some_iff.mp hindex).1.trans_le (le_two_pow_codeWidth _)

lemma Succeeded.widthsAgree (u : Uninit) (hline : ∀ w ∈ main, w ≠ [] ∧ (10 : UInt8) ∉ w)
    (hstay : WidthsStay main (tokenizeRaw text)) : WidthsAgree u (tokenizeRaw text) run := by
  have hphrase : phraseCount (tokenizeRaw text) < 2 ^ 32 := hstay.phrases.trans_lt (by decide)
  obtain ⟨hmainWidth, hphraseWidth⟩ := h.reader_mainWidth u hline hstay.main_lt hphrase
  refine ⟨?_, ?_, ?_, ?_⟩
  · rw [h.mainWidth, hmainWidth, hstay.main]
  · rw [h.localWidth, h.reader_localWidth, codeWidth_eq_mod_iff, h.localSize]
    exact hstay.rare
  · rw [h.phraseWidth, hphraseWidth]
    exact (codeWidth_eq_zero_iff.mpr hstay.phrases).symm
  · intro token ht code width hcode
    cases token with
    | word w => exact h.wordCode_lt hstay.main_lt hstay.main hcode
    | phrase phraseId =>
      cases hcode
      have hid := (h.phraseId_lt hstay.main_lt hphrase ht).trans_le hstay.phrases
      exact hid.trans_le Nat.one_le_two_pow
    | wildcard w phraseId => exact h.wordCode_lt hstay.main_lt hstay.main hcode

lemma Succeeded.widthsStay {u : Uninit} (hline : ∀ w ∈ main, w ≠ [] ∧ (10 : UInt8) ∉ w)
    (hmain : knownWords main (tokenizeRaw text) < 2 ^ 32)
    (hphrase : phraseCount (tokenizeRaw text) < 2 ^ 32)
    (hagree : WidthsAgree u (tokenizeRaw text) run) : WidthsStay main (tokenizeRaw text) := by
  obtain ⟨hmainWidth, hphraseWidth⟩ := h.reader_mainWidth u hline hmain hphrase
  refine ⟨?_, ?_, hmain, ?_⟩
  · rw [← codeWidth_eq_zero_iff, ← hphraseWidth, ← hagree.phrase, h.phraseWidth]
  · rw [← hmainWidth, ← hagree.main, h.mainWidth]
  · rw [← h.localSize, ← codeWidth_eq_mod_iff, ← h.localWidth, ← h.reader_localWidth u]
    exact hagree.rare

end Sizes

/-- The sizes in the condition do not depend on the order of the word list. -/
lemma knownWords_perm {main dictWords : List Word} (h : main.Perm dictWords)
    (rawTokens : List Word) : knownWords main rawTokens = knownWords dictWords rawTokens := by
  rw [knownWords, knownWords, h.length_eq, List.toFinset_eq_of_perm _ _ h]

lemma widthsStay_perm {main dictWords : List Word} (h : main.Perm dictWords)
    (rawTokens : List Word) : WidthsStay main rawTokens ↔ WidthsStay dictWords rawTokens := by
  have hset : main.toFinset = dictWords.toFinset := List.toFinset_eq_of_perm _ _ h
  constructor
  · rintro ⟨hphrases, hmain, hlt, hrare⟩
    rw [knownWords_perm h] at hmain hlt
    rw [h.length_eq] at hmain
    rw [hset] at hrare
    exact ⟨hphrases, hmain, hlt, hrare⟩
  · rintro ⟨hphrases, hmain, hlt, hrare⟩
    rw [← knownWords_perm h] at hmain hlt
    rw [← h.length_eq] at hmain
    rw [← hset] at hrare
    exact ⟨hphrases, hmain, hlt, hrare⟩

lemma widthsAgree_of_stay {ch : Choices} (u : Uninit) {files : CompressFiles}
    (hsuccess : (compress ch files {}).status = .success)
    (hstay : WidthsStay (loadDictionaryWords files.dictionary) files.rawTokens) :
    WidthsAgree u files.rawTokens (compress ch files {}) := by
  obtain ⟨text, main, hinput, hperm, hrun⟩ := compress_success hsuccess
  have htokens : files.rawTokens = tokenizeRaw text := by rw [CompressFiles.rawTokens, hinput]; rfl
  rw [htokens] at hstay ⊢
  exact hrun.widthsAgree u (fun w hw => loadDictionaryWords_line (hperm.mem_iff.mp hw))
    ((widthsStay_perm hperm _).mpr hstay)

lemma stay_of_widthsAgree {ch : Choices} {u : Uninit} {files : CompressFiles}
    (hsuccess : (compress ch files {}).status = .success)
    (hmain : knownWords (loadDictionaryWords files.dictionary) files.rawTokens < 2 ^ 32)
    (hphrase : phraseCount files.rawTokens < 2 ^ 32)
    (hagree : WidthsAgree u files.rawTokens (compress ch files {})) :
    WidthsStay (loadDictionaryWords files.dictionary) files.rawTokens := by
  obtain ⟨text, main, hinput, hperm, hrun⟩ := compress_success hsuccess
  have htokens : files.rawTokens = tokenizeRaw text := by rw [CompressFiles.rawTokens, hinput]; rfl
  rw [htokens] at hmain hphrase hagree ⊢
  rw [← knownWords_perm hperm] at hmain
  exact (widthsStay_perm hperm _).mp (hrun.widthsStay
    (fun w hw => loadDictionaryWords_line (hperm.mem_iff.mp hw)) hmain hphrase hagree)

/-- For every word list, text and order of traversal on which `compress` succeeds: the condition
makes the widths agree, and within 32-bit sizes they agree only then. -/
theorem widthsAgree_iff (ch : Choices) (u : Uninit) (files : CompressFiles)
    (hsuccess : (compress ch files {}).status = .success) :
    (WidthsStay (loadDictionaryWords files.dictionary) files.rawTokens →
      WidthsAgree u files.rawTokens (compress ch files {})) ∧
    (knownWords (loadDictionaryWords files.dictionary) files.rawTokens < 2 ^ 32 →
      phraseCount files.rawTokens < 2 ^ 32 →
      WidthsAgree u files.rawTokens (compress ch files {}) →
        WidthsStay (loadDictionaryWords files.dictionary) files.rawTokens) :=
  ⟨widthsAgree_of_stay u hsuccess, stay_of_widthsAgree hsuccess⟩

/-- The word list `a`, `b`, `c` and the text `a b`, whose only phrase is `a b`. -/
def twoWordFiles : CompressFiles where
  dictionary := some [0x61, 10, 0x62, 10, 0x63, 10]
  input := some [0x61, 32, 0x62]

theorem widthsAgree_twoWords :
    WidthsAgree zeroUninit twoWordFiles.rawTokens (compress stableChoices twoWordFiles {}) := by
  refine (widthsAgree_iff stableChoices zeroUninit twoWordFiles (by decide +kernel)).1 ⟨?_, ?_, ?_, ?_⟩
  all_goals decide +kernel

/-- The word list `a` and the text `a b c`, which has three phrases. -/
def threeWordFiles : CompressFiles where
  dictionary := some [0x61, 10]
  input := some [0x61, 32, 0x62, 32, 0x63]

theorem not_widthsAgree_threeWords :
    (compress stableChoices threeWordFiles {}).status = .success ∧
      ¬ WidthsAgree zeroUninit threeWordFiles.rawTokens (compress stableChoices threeWordFiles {}) := by
  have hsuccess : (compress stableChoices threeWordFiles {}).status = .success := by decide +kernel
  refine ⟨hsuccess, fun hagree => ?_⟩
  have hstay := stay_of_widthsAgree hsuccess (by decide +kernel) (by decide +kernel) hagree
  exact absurd hstay.phrases (by decide +kernel)

end HashCompress.Compressor
