import HashCompress.Compressor

/-!
# Successful runs of the compressor

What a run of `compress` that returns true has computed, and the two files that it leaves.
-/
namespace HashCompress.Compressor

open BitList BitIO WordText TallyMap KeyTrie CodeTables TokenCodec DictionaryFile TokenLoop
open PhraseMining PhraseSegment Tokenizer

/-! ### The main dictionary -/

lemma buildEncode_concat (words : List Word) (w : Word) :
    buildEncode (words ++ [w]) = (buildEncode words).insert w (UInt32.ofNat words.length) := by
  unfold buildEncode
  rw [List.zipIdx_append, List.foldl_append]
  simp

/-- The two dictionaries that are built from a list of words fit together. -/
theorem buildEncode_coherent (words : List Word) :
    MainDict.Coherent ⟨buildEncode words, words⟩ := by
  induction words using List.reverseRecOn with
  | nil => exact coherent_empty
  | append_singleton words w ih =>
    refine ⟨fun v => ?_, fun hle v code hv => ?_⟩
    · have hkeys : v ∈ buildEncode words ↔ v ∈ words := ih.keys v
      simp only [buildEncode_concat, AList.mem_insert, List.mem_append, List.mem_singleton, hkeys]
      tauto
    · simp only [buildEncode_concat] at hv
      have hlen : words.length < 2 ^ 32 := by simpa using hle
      by_cases heq : v = w
      · subst heq
        rw [AList.lookup_insert, Option.some.injEq] at hv
        subst hv
        rw [UInt32.toNat_ofNat_of_lt' (by simpa using hlen)]
        exact List.getElem?_concat_length
      · rw [AList.lookup_insert_ne heq] at hv
        exact getElem?_mono (List.prefix_append words [w]) (ih.codes hlen.le v code hv)

lemma sep_not_mem_of_mem_splitOn {sep : UInt8} {content word : List UInt8}
    (h : word ∈ content.splitOn sep) : sep ∉ word := by
  induction content generalizing word with
  | nil =>
    rw [List.splitOn_nil, List.mem_singleton] at h
    simp [h]
  | cons b content ih =>
    rw [List.splitOn_cons_eq_if_modifyHead] at h
    cases hsplit : content.splitOn sep with
    | nil => exact absurd hsplit (List.splitOn_ne_nil sep content)
    | cons first pieces =>
      rw [hsplit] at h ih
      split_ifs at h with hb
      · rcases List.mem_cons.mp h with rfl | h
        · simp
        · exact ih h
      · rcases List.mem_cons.mp h with rfl | h
        · have hfirst := ih List.mem_cons_self
          simp only [beq_iff_eq] at hb
          simp [hfirst, Ne.symm hb]
        · exact ih (List.mem_cons_of_mem _ h)

lemma toLower_eq_line_end {b : UInt8} : toLower b = 10 ↔ b = 10 := by
  revert b
  decide +kernel

/-- The words of the list are lines: not empty and without a line end. -/
lemma loadDictionaryWords_line {dictionary : Option (List UInt8)} {w : Word}
    (hw : w ∈ loadDictionaryWords dictionary) : w ≠ [] ∧ (10 : UInt8) ∉ w := by
  cases dictionary with
  | none => simp [loadDictionaryWords] at hw
  | some content =>
    obtain ⟨line, hline, rfl⟩ := List.mem_map.mp hw
    obtain ⟨hpiece, hne⟩ := List.mem_filter.mp hline
    refine ⟨by simpa using hne, fun hmem => ?_⟩
    obtain ⟨b, hb, hlower⟩ := List.mem_map.mp hmem
    rw [toLower_eq_line_end.mp hlower] at hb
    exact sep_not_mem_of_mem_splitOn hpiece hb

lemma line_of_isToken {w : Word} (h : IsToken w) : w ≠ [] ∧ (10 : UInt8) ∉ w :=
  ⟨h.ne_nil, fun hmem => absurd (h.solid 10 hmem) (by decide)⟩

lemma mainWords_perm (sort : SortOrder (Word × UInt32) fun a b => a.2 > b.2) (frequencies : WordMap)
    (dictWords : List Word) : (mainWords sort frequencies dictWords).Perm dictWords := by
  have hperm := (sort.perm (dictWords.map fun word => (word, (frequencies.lookup word).getD 1))).map
    Prod.fst
  rw [List.map_map] at hperm
  simpa [mainWords, Function.comp_def] using hperm

/-! ### The bits only grow -/

/-- Writing goes on behind the bits that are already there. -/
def Extends (bw bw' : BitWriter) : Prop := bw.Ok → bw'.Ok ∧ bw.bits <+: bw'.bits

lemma Extends.refl (bw : BitWriter) : Extends bw bw := fun h => ⟨h, List.prefix_rfl⟩

lemma Extends.trans {bw₁ bw₂ bw₃ : BitWriter} (h₁ : Extends bw₁ bw₂) (h₂ : Extends bw₂ bw₃) :
    Extends bw₁ bw₃ := by
  intro hok
  obtain ⟨hok₂, hbits₁⟩ := h₁ hok
  obtain ⟨hok₃, hbits₂⟩ := h₂ hok₂
  exact ⟨hok₃, hbits₁.trans hbits₂⟩

lemma extends_writeBits (bw : BitWriter) (value : UInt32) (n : ℕ) :
    Extends bw (bw.writeBits value n) := by
  intro hok
  refine ⟨BitWriter.writeBits_ok hok value n, ?_⟩
  rw [BitWriter.bits_writeBits hok]
  exact List.prefix_append _ _

lemma extends_foldl {α : Type} {write : BitWriter → α → BitWriter}
    (h : ∀ bw x, Extends bw (write bw x)) (xs : List α) (bw : BitWriter) :
    Extends bw (xs.foldl write bw) := by
  induction xs generalizing bw with
  | nil => exact Extends.refl bw
  | cons x xs ih => exact (h bw x).trans (ih (write bw x))

lemma extends_writeLocalDictionary (localDecode : List Word) (bw : BitWriter) :
    Extends (bw.writeBits (UInt32.ofNat localDecode.length) 16)
      (writeLocalDictionary localDecode bw) := by
  refine extends_foldl (fun bw word => ?_) localDecode _
  exact (extends_writeBits bw _ 8).trans (extends_foldl (fun bw _ => extends_writeBits bw _ 8) word _)

/-- The code of a word and the width it is written with. -/
def wordCode (e : EncodeTables) (w : Word) : Option (UInt32 × ℕ) :=
  match e.mainEncode.lookup w with
  | some code => some (code, e.mainWidth)
  | none => (e.localEncode.lookup w).map fun code => (code, e.localWidth)

/-- The code that is written for a token, behind its type bits. -/
def tokenCode (e : EncodeTables) : Token → Option (UInt32 × ℕ)
  | .word w => wordCode e w
  | .phrase phraseId => some (phraseId, e.phraseWidth)
  | .wildcard w _ => wordCode e w

lemma writeWord_code {e : EncodeTables} {missing : Word → WriteError} {w : Word}
    {bw bw' : BitWriter} (h : writeWord e missing w bw = .ok bw') :
    ∃ tagged code width, wordCode e w = some (code, width) ∧ Extends bw tagged ∧
      bw' = tagged.writeBits code width := by
  unfold writeWord at h
  unfold wordCode
  cases hmain : e.mainEncode.lookup w with
  | some code =>
    rw [hmain] at h
    cases h
    exact ⟨_, code, e.mainWidth, rfl, extends_writeBits bw 0 1, rfl⟩
  | none =>
    cases hlocal : e.localEncode.lookup w with
    | some code =>
      rw [hmain, hlocal] at h
      cases h
      exact ⟨_, code, e.localWidth, rfl, extends_writeBits bw 1 1, rfl⟩
    | none =>
      rw [hmain, hlocal] at h
      cases h

/-- A token that is written is its type bits and then its code. -/
lemma writeToken_code {e : EncodeTables} {token : Token} {bw bw' : BitWriter}
    (h : writeToken e bw token = .ok bw') :
    ∃ tagged code width, tokenCode e token = some (code, width) ∧ Extends bw tagged ∧
      bw' = tagged.writeBits code width := by
  cases token with
  | word w => exact writeWord_code h
  | phrase phraseId =>
    cases h
    exact ⟨_, phraseId, e.phraseWidth, rfl, extends_writeBits bw 2 2, rfl⟩
  | wildcard w phraseId =>
    obtain ⟨tagged, code, width, hcode, hext, heq⟩ := writeWord_code h
    exact ⟨tagged, code, width, hcode, (extends_writeBits bw 3 2).trans hext, heq⟩

lemma extends_writeTokens {e : EncodeTables} {tokens : List Token} {bw bw' : BitWriter}
    (h : writeTokens e bw tokens = .ok bw') : Extends bw bw' := by
  induction tokens generalizing bw with
  | nil =>
    cases h
    exact Extends.refl _
  | cons token tokens ih =>
    cases hfirst : writeToken e bw token with
    | error failure =>
      rw [writeTokens, List.foldlM_cons, hfirst] at h
      cases h
    | ok next =>
      rw [writeTokens, List.foldlM_cons, hfirst] at h
      obtain ⟨tagged, code, width, -, hext, rfl⟩ := writeToken_code hfirst
      exact (hext.trans (extends_writeBits tagged code width)).trans (ih h)

/-- The reader finds as many local words as the 16-bit header says. -/
lemma readLocalDictionary_length {bw : BitWriter} {size : ℕ}
    (h : Extends (({} : BitWriter).writeBits (UInt32.ofNat size) 16) bw) (hsize : size < 2 ^ 32) :
    (readLocalDictionary ⟨bw.flush.buffer, 0, 0⟩).1.length = size % 2 ^ 16 := by
  obtain ⟨hok, tail, hbits⟩ := h (BitWriter.writeBits_ok BitWriter.ok_empty _ _)
  rw [BitWriter.bits_writeBits BitWriter.ok_empty, BitWriter.bits_empty, List.nil_append] at hbits
  have hrest : (⟨bw.flush.buffer, 0, 0⟩ : BitReader).rest =
      natBits 16 (UInt32.ofNat size).toNat ++ (tail ++
        List.replicate ((8 - bw.bits.length % 8) % 8) false) := by
    refine (BitReader.rest_start [] bw.flush.buffer).trans ((BitWriter.bytesBits_flush hok).trans ?_)
    rw [← hbits, List.append_assoc]
  obtain ⟨hread, -, -⟩ :=
    BitReader.readBits_natBits (BitReader.ok_start bw.flush.buffer 0) (by omega) hrest
  unfold readLocalDictionary
  rw [readLocalWords_length, hread, UInt32.toNat_ofNat_of_lt' (by simpa using hsize)]

/-! ### The steps of `compress` -/

/-- Steps 8 to 12 of `compress`, with the statistics that are printed before them. -/
def finish (ch : Choices) (files : CompressFiles) (rawTokens : List Word)
    (c : TwoTierTextCompressor) : CompressRun :=
  match printPhraseStats ch.sortPhrases c with
  | none => ⟨.undefinedIndex, c, none, none⟩
  | some _ =>
    let processedTokens := processWithPhrases c.phraseTrieRoot rawTokens
    let rare := rareWords c.mainEncode processedTokens
    if 2 ^ 32 ≤ (appendNew [] rare).length then ⟨.diverges, c, none, none⟩
    else writeFiles files processedTokens (buildLocalDictionary rare c)

/-- The object with which `learn` starts on a text. -/
def resetFor (rawTokens : List Word) (c : TwoTierTextCompressor) : TwoTierTextCompressor :=
  { c with
    phraseTrieRoot := Trie.leaf {}
    phraseDecode := []
    nonRepeatedPhrases := 0
    wordFrequencies := tally rawTokens }

def wordsFor (ch : Choices) (files : CompressFiles) (text : List UInt8) : List Word :=
  mainWords ch.sortWords (tally (tokenizeRaw text)) (loadDictionaryWords files.dictionary)

lemma compress_some {ch : Choices} {files : CompressFiles} {text : List UInt8}
    (hinput : files.input = some text) (c : TwoTierTextCompressor) :
    compress ch files c =
      if loadDictionaryWords files.dictionary = [] then
        ⟨.failed .dictionaryWords, resetFor (tokenizeRaw text) c, none, none⟩
      else if 2 ^ 32 ≤ (wordsFor ch files text).length then
        ⟨.diverges, resetFor (tokenizeRaw text) c, none, none⟩
      else finish ch files (tokenizeRaw text)
        (learn ch (tokenizeRaw text) (wordsFor ch files text) (resetFor (tokenizeRaw text) c)) := by
  unfold compress
  rw [hinput]
  rfl

/-- Whether a run comes to the last steps does not depend on the object. -/
lemma compress_eq_finish {ch : Choices} {files : CompressFiles} {c : TwoTierTextCompressor}
    (h : (compress ch files c).status = .success) :
    ∃ text, files.input = some text ∧ (wordsFor ch files text).length < 2 ^ 32 ∧
      ∀ c', compress ch files c' = finish ch files (tokenizeRaw text)
        (learn ch (tokenizeRaw text) (wordsFor ch files text) (resetFor (tokenizeRaw text) c')) := by
  cases hinput : files.input with
  | none =>
    unfold compress at h
    rw [hinput] at h
    cases h
  | some text =>
    rw [compress_some hinput] at h
    by_cases hwords : loadDictionaryWords files.dictionary = []
    · rw [if_pos hwords] at h
      cases h
    rw [if_neg hwords] at h
    by_cases hmain : 2 ^ 32 ≤ (wordsFor ch files text).length
    · rw [if_pos hmain] at h
      cases h
    refine ⟨text, rfl, not_le.mp hmain, fun c' => ?_⟩
    rw [compress_some hinput, if_neg hwords, if_neg hmain]

lemma finish_success {ch : Choices} {files : CompressFiles} {rawTokens : List Word}
    {c : TwoTierTextCompressor} (h : (finish ch files rawTokens c).status = .success) :
    (printPhraseStats ch.sortPhrases c).isSome ∧
      (appendNew [] (rareWords c.mainEncode
        (processWithPhrases c.phraseTrieRoot rawTokens))).length < 2 ^ 32 := by
  unfold finish at h
  cases hstats : printPhraseStats ch.sortPhrases c with
  | none =>
    rw [hstats] at h
    cases h
  | some stats =>
    rw [hstats] at h
    dsimp only at h
    split_ifs at h with hlocal
    exact ⟨rfl, not_le.mp hlocal⟩

lemma finish_eq_writeFiles {ch : Choices} {files : CompressFiles} {rawTokens : List Word}
    {c : TwoTierTextCompressor} (hstats : (printPhraseStats ch.sortPhrases c).isSome)
    (hlocal : (appendNew [] (rareWords c.mainEncode
      (processWithPhrases c.phraseTrieRoot rawTokens))).length < 2 ^ 32) :
    finish ch files rawTokens c =
      writeFiles files (processWithPhrases c.phraseTrieRoot rawTokens)
        (buildLocalDictionary (rareWords c.mainEncode
          (processWithPhrases c.phraseTrieRoot rawTokens)) c) := by
  obtain ⟨stats, hstats⟩ := Option.isSome_iff_exists.mp hstats
  unfold finish
  rw [hstats]
  exact if_neg (not_le.mpr hlocal)

/-! ### What a successful run has computed -/

/-- A run that returned true, on a text and a dictionary of the words `main`. -/
structure Succeeded (ch : Choices) (text : List UInt8) (main : List Word) (run : CompressRun) :
    Prop where
  main_lt : main.length < 2 ^ 32
  mainDecode : run.object.mainDecode =
    (minePhrases ch.orders (tokenizeRaw text) ⟨buildEncode main, main⟩).main.decode
  mainEncode : run.object.mainEncode =
    (minePhrases ch.orders (tokenizeRaw text) ⟨buildEncode main, main⟩).main.encode
  phraseTrieRoot : run.object.phraseTrieRoot =
    (minePhrases ch.orders (tokenizeRaw text) ⟨buildEncode main, main⟩).phraseTrieRoot
  phraseDecode : run.object.phraseDecode =
    (minePhrases ch.orders (tokenizeRaw text) ⟨buildEncode main, main⟩).phraseDecode
  mainWidth : run.object.mainMaxBitLength = codeWidth main.length
  phraseWidth : run.object.phraseMaxBitLength = 0
  localDecode : run.object.localDecode = appendNew [] (rareWords run.object.mainEncode
    (processWithPhrases run.object.phraseTrieRoot (tokenizeRaw text)))
  local_lt : run.object.localDecode.length < 2 ^ 32
  localEncode : run.object.localEncode = buildEncode run.object.localDecode
  localWidth : run.object.localMaxBitLength = codeWidth run.object.localDecode.length
  engDict : run.engDict = some (writeDictionaries run.object.mainDecode run.object.phraseDecode)
  compressed : ∃ bw, writeTokens (encodeTables run.object)
    (writeLocalDictionary run.object.localDecode {})
    (processWithPhrases run.object.phraseTrieRoot (tokenizeRaw text)) = .ok bw ∧
    run.compressed = some bw.flush.buffer

lemma writeFiles_success {files : CompressFiles} {tokens : List Token} {c : TwoTierTextCompressor}
    (h : (writeFiles files tokens c).status = .success) :
    ∃ bw, writeTokens (encodeTables c) (writeLocalDictionary c.localDecode {}) tokens = .ok bw ∧
      writeFiles files tokens c = ⟨.success, c, some (writeDictionaries c.mainDecode c.phraseDecode),
        some bw.flush.buffer⟩ := by
  unfold writeFiles at h ⊢
  cases hdict : files.engDictWritable with
  | false => simp [hdict] at h
  | true =>
    cases hwrite : writeTokens (encodeTables c) (writeLocalDictionary c.localDecode {}) tokens with
    | error e => simp [hdict, hwrite] at h
    | ok bw =>
      cases hout : files.outputWritable with
      | false => simp [hdict, hwrite, hout] at h
      | true => exact ⟨bw, rfl, by simp⟩

/-- A run returns true only at the end of the last step. -/
theorem compress_success {ch : Choices} {files : CompressFiles}
    (h : (compress ch files {}).status = .success) :
    ∃ text main, files.input = some text ∧ main.Perm (loadDictionaryWords files.dictionary) ∧
      Succeeded ch text main (compress ch files {}) := by
  obtain ⟨text, hinput, hmain, hfinish⟩ := compress_eq_finish h
  have hperm := mainWords_perm ch.sortWords (tally (tokenizeRaw text))
    (loadDictionaryWords files.dictionary)
  rw [hfinish] at h ⊢
  obtain ⟨hstats, hlocal⟩ := finish_success h
  rw [finish_eq_writeFiles hstats hlocal] at h ⊢
  obtain ⟨bw, hwrite, hrun⟩ := writeFiles_success h
  rw [hrun]
  exact ⟨text, wordsFor ch files text, hinput, hperm, ⟨hmain, rfl, rfl, rfl, rfl, rfl, rfl, rfl,
    hlocal, rfl, rfl, rfl, bw, hwrite, rfl⟩⟩

end HashCompress.Compressor
