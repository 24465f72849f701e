import HashCompress.InputStream
import HashCompress.CodeTables

/-!
# The dictionary file

`write_dictionaries` and `load_dictionaries`: a line with the two counts, one line per word and one
line per phrase.
-/
namespace HashCompress.DictionaryFile

open InputStream CodeTables

def phraseLine (p : PhraseInfo) : List UInt8 :=
  (if p.hasWildcard then [49] else [48]) ++ [32] ++
    (if p.hasWildcard then decimal p.wildcardPos ++ [32] else []) ++
    decimal p.wordCodes.length ++ [32] ++ decimal p.frequency.toNat ++ [32] ++
    p.wordCodes.flatMap (fun code => decimal code.toNat ++ [32])

/-- The text of the dictionary file. -/
def writeDictionaries (mainDecode : List Word) (phraseDecode : List PhraseInfo) : List UInt8 :=
  decimal mainDecode.length ++ [32] ++ decimal phraseDecode.length ++ [10] ++
    mainDecode.flatMap (fun word => word ++ [10]) ++
    phraseDecode.flatMap (fun p => phraseLine p ++ [10])

/-- The values of the loader's local variables before anything is extracted into them. -/
structure Uninit where
  wordCount : UInt32
  phraseCount : UInt32
  hasWildcard : ℕ → ℤ
  phraseWordCount : ℕ → UInt32
  code : ℕ → ℕ → UInt32

def readWords : ℕ → IStream → List Word × IStream
  | 0, s => ([], s)
  | n + 1, s =>
    let (word, s) := s.getline
    let (words, s) := readWords n s
    (if word = [] then words else word :: words, s)

def readCodes (uninit : ℕ → UInt32) : ℕ → ℕ → IStream → List UInt32
  | 0, _, _ => []
  | n + 1, j, s =>
    let (code, s) := s.extractNat (2 ^ 32 - 1) (uninit j).toNat
    UInt32.ofNat code :: readCodes uninit n (j + 1) s

/-- The phrase in line `i` of the phrase lines. -/
def readPhraseLine (u : Uninit) (i : ℕ) (line : List UInt8) : PhraseInfo :=
  let ss : IStream := { rest := line }
  let (hasWildcard, ss) := ss.extractInt (2 ^ 31 - 1) (u.hasWildcard i)
  let (wildcardPos, ss) := if hasWildcard = 1 then ss.extractNat (2 ^ 64 - 1) 0 else (0, ss)
  let (wordCount, ss) := ss.extractNat (2 ^ 32 - 1) (u.phraseWordCount i).toNat
  let (frequency, ss) := ss.extractNat (2 ^ 32 - 1) 0
  ⟨readCodes (u.code i) wordCount 0 ss, UInt32.ofNat frequency, decide (hasWildcard = 1), wildcardPos⟩

def readPhrases (u : Uninit) : ℕ → ℕ → IStream → List PhraseInfo
  | 0, _, _ => []
  | n + 1, i, s =>
    let (line, s) := s.getline
    let phrases := readPhrases u n (i + 1) s
    if line = [] then phrases else readPhraseLine u i line :: phrases

/-- The two lists that `load_dictionaries` builds from the text of the file. -/
def loadDictionaries (u : Uninit) (text : List UInt8) : List Word × List PhraseInfo :=
  let s : IStream := { rest := text }
  let (wordCount, s) := s.extractNat (2 ^ 32 - 1) u.wordCount.toNat
  let (phraseCount, s) := s.extractNat (2 ^ 32 - 1) u.phraseCount.toNat
  let (_, s) := s.getline
  let (words, s) := readWords wordCount s
  (words, readPhrases u phraseCount 0 s)

/-- The map from words to their indices; of equal words the last one counts. -/
def buildEncode (words : List Word) : WordMap :=
  words.zipIdx.foldl (fun dict entry => dict.insert entry.1 (UInt32.ofNat entry.2)) ∅

/-! ### Reading what was written -/

lemma readWords_written {words : List Word} (hne : ∀ w ∈ words, w ≠ [])
    (hline : ∀ w ∈ words, (10 : UInt8) ∉ w) (tail : List UInt8) :
    readWords words.length { rest := words.flatMap (fun word => word ++ [10]) ++ tail } =
      (words, { rest := tail }) := by
  induction words with
  | nil => rfl
  | cons w words ih =>
    have hrest := ih (fun v hv => hne v (List.mem_cons_of_mem _ hv))
      (fun v hv => hline v (List.mem_cons_of_mem _ hv))
    have hget := getline_line (hline w List.mem_cons_self)
      (words.flatMap (fun word => word ++ [10]) ++ tail)
    simp only [List.flatMap_cons, List.append_assoc, List.cons_append, List.nil_append,
      List.length_cons, readWords, hget, hrest, if_neg (hne w List.mem_cons_self)]

lemma line_end_not_mem_decimal (n : ℕ) : (10 : UInt8) ∉ decimal n :=
  fun h => absurd (decimal_isDigit h) (by decide)

lemma phraseLine_no_line_end (p : PhraseInfo) : (10 : UInt8) ∉ phraseLine p := by
  unfold phraseLine
  cases p.hasWildcard <;> simp [line_end_not_mem_decimal]

lemma phraseLine_ne_nil (p : PhraseInfo) : phraseLine p ≠ [] := by
  unfold phraseLine
  cases p.hasWildcard <;> simp

lemma readPhrases_written_length (u : Uninit) (phrases : List PhraseInfo) (i : ℕ) :
    (readPhrases u phrases.length i
      { rest := phrases.flatMap (fun p => phraseLine p ++ [10]) }).length = phrases.length := by
  induction phrases generalizing i with
  | nil => rfl
  | cons p phrases ih =>
    have hget := getline_line (phraseLine_no_line_end p)
      (phrases.flatMap (fun p => phraseLine p ++ [10]))
    simp only [List.flatMap_cons, List.append_assoc, List.singleton_append, List.length_cons,
      readPhrases, hget, if_neg (phraseLine_ne_nil p), ih]

/-- The lines behind the first one, which holds the two counts. -/
def dictionaryLines (words : List Word) (phrases : List PhraseInfo) : List UInt8 :=
  words.flatMap (fun word => word ++ [10]) ++ phrases.flatMap (fun p => phraseLine p ++ [10])

lemma extractNat_wordCount (u : Uninit) {words : List Word} (phrases : List PhraseInfo)
    (hwords : words.length < 2 ^ 32) :
    IStream.extractNat (2 ^ 32 - 1) u.wordCount.toNat { rest := writeDictionaries words phrases } =
      (words.length,
        { rest := [32] ++ (decimal phrases.length ++ 10 :: dictionaryLines words phrases) }) := by
  have htext : writeDictionaries words phrases = [] ++ (decimal words.length ++
      32 :: (decimal phrases.length ++ 10 :: dictionaryLines words phrases)) := by
    simp [writeDictionaries, dictionaryLines]
  rw [htext]
  exact extractNat_decimal u.wordCount.toNat (by omega) (by decide) [] (by simp) _

/-- The loader finds the words that were written, and goes on with the phrase lines. -/
lemma loadDictionaries_eq (u : Uninit) {words : List Word} {phrases : List PhraseInfo}
    (hwords : words.length < 2 ^ 32) (hphrases : phrases.length < 2 ^ 32)
    (hne : ∀ w ∈ words, w ≠ []) (hline : ∀ w ∈ words, (10 : UInt8) ∉ w) :
    loadDictionaries u (writeDictionaries words phrases) =
      (words, readPhrases u phrases.length 0
        { rest := phrases.flatMap (fun p => phraseLine p ++ [10]) }) := by
  have hsecond := extractNat_decimal u.phraseCount.toNat (by omega : phrases.length ≤ 2 ^ 32 - 1)
    (by decide : isDigit 10 = false) [32] (by simp [isSpace]) (dictionaryLines words phrases)
  have hskip := getline_line (by simp : (10 : UInt8) ∉ ([] : List UInt8))
    (dictionaryLines words phrases)
  have hread := readWords_written hne hline (phrases.flatMap (fun p => phraseLine p ++ [10]))
  rw [List.nil_append] at hskip
  rw [← dictionaryLines] at hread
  unfold loadDictionaries
  dsimp only
  rw [extractNat_wordCount u phrases hwords]
  dsimp only
  rw [hsecond]
  dsimp only
  rw [hskip]
  dsimp only
  rw [hread]

theorem loadDictionaries_written (u : Uninit) {words : List Word} {phrases : List PhraseInfo}
    (hwords : words.length < 2 ^ 32) (hphrases : phrases.length < 2 ^ 32)
    (hne : ∀ w ∈ words, w ≠ []) (hline : ∀ w ∈ words, (10 : UInt8) ∉ w) :
    (loadDictionaries u (writeDictionaries words phrases)).1 = words ∧
      (loadDictionaries u (writeDictionaries words phrases)).2.length = phrases.length := by
  rw [loadDictionaries_eq u hwords hphrases hne hline]
  exact ⟨rfl, readPhrases_written_length u phrases 0⟩

end HashCompress.DictionaryFile
