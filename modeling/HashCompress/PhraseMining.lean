import HashCompress.WordText
import HashCompress.TallyMap
import HashCompress.KeyTrie
import HashCompress.CodeTables

/-!
# Phrase mining

`build_ngrams`, `find_wildcard_phrases` and `find_regular_phrases`. Every `unordered_map` that the
passes traverse comes with an arbitrary order of its entries.
-/
namespace HashCompress.PhraseMining

open WordText TallyMap KeyTrie CodeTables

def star : Word := [42]

structure NodeInfo where
  isEnd : Bool := false
  phraseId : UInt32 := 0
  frequency : UInt32 := 0
  wordCodes : List UInt32 := []
  hasWildcard : Bool := false
  wildcardPos : ℕ := 0
  wildcardCodes : AList (fun _ : UInt32 => UInt32) := ∅

abbrev PhraseNode := Trie Word NodeInfo

/-- `main_encode_dict` and `main_decode_dict`. -/
structure MainDict where
  encode : WordMap
  decode : List Word

/-- The code of a word, which is added to the dictionary if it is new. -/
def MainDict.codeOf (d : MainDict) (w : Word) : UInt32 × MainDict :=
  match d.encode.lookup w with
  | some code => (code, d)
  | none =>
    let newCode := UInt32.ofNat d.decode.length
    (newCode, ⟨d.encode.insert w newCode, d.decode ++ [w]⟩)

/-- The codes of a list of words; a skipped word gets the placeholder `UINT32_MAX`. -/
def codesOf (skip : Word → Bool) : MainDict → List Word → List UInt32 × MainDict
  | d, [] => ([], d)
  | d, w :: words =>
    if skip w then
      let (codes, d) := codesOf skip d words
      (4294967295 :: codes, d)
    else
      let (code, d) := d.codeOf w
      let (codes, d) := codesOf skip d words
      (code :: codes, d)

structure MiningState where
  main : MainDict
  phraseTrieRoot : PhraseNode
  phraseDecode : List PhraseInfo
  nonRepeatedPhrases : UInt32

def buildNgrams (tokens : List Word) (minSize maxSize : ℕ) : List (List Word) :=
  (List.range tokens.length).flatMap fun i =>
    ((List.range' minSize (maxSize + 1 - minSize)).takeWhile
      fun size => i + size ≤ tokens.length).map fun size => (tokens.drop i).take size

/-- A window of the tokens, a wildcard position in it and the word that stands there. -/
structure Occurrence where
  window : List Word
  pos : ℕ
  deriving DecidableEq

def Occurrence.pattern (o : Occurrence) : List Word := o.window.set o.pos star

def Occurrence.word (o : Occurrence) : Word := o.window.getD o.pos []

def wildcardOccurrences (tokens : List Word) : List Occurrence :=
  (List.range' 2 4).flatMap fun phraseLen =>
    (List.range (tokens.length + 1 - phraseLen)).flatMap fun start =>
      (List.range phraseLen).map fun pos => ⟨(tokens.drop start).take phraseLen, pos⟩

abbrev PosMap := AList fun _ : ℕ => WordMap

/-- `wildcard_patterns[pattern_key][wildcard_pos][wildcard_word]++` for every occurrence. -/
def wildcardPatterns (tokens : List Word) : AList fun _ : List UInt8 => PosMap :=
  (wildcardOccurrences tokens).foldl (fun patterns o =>
    upsert patterns (joinWords o.pattern) ∅ fun byPos =>
      upsert byPos o.pos ∅ fun words => upsert words o.word 0 (· + 1)) ∅

/-- An order of traversal for each map that the passes go through. -/
structure Orders where
  patterns : IterOrder (Sigma fun _ : List UInt8 => PosMap)
  positions : List UInt8 → IterOrder (Sigma fun _ : ℕ => WordMap)
  words : List UInt8 → ℕ → IterOrder (Sigma fun _ : Word => UInt32)
  ngrams : IterOrder (Sigma fun _ : List UInt8 => UInt32)

def Orders.same : Orders := ⟨.same _, fun _ => .same _, fun _ _ => .same _, .same _⟩

/-- The wildcard words of a pattern with their counts, recorded under their codes. -/
def recordWildcards : MainDict → AList (fun _ : UInt32 => UInt32) →
    List (Sigma fun _ : Word => UInt32) → AList (fun _ : UInt32 => UInt32) × MainDict
  | d, codes, [] => (codes, d)
  | d, codes, entry :: words =>
    let (code, d) := d.codeOf entry.1
    recordWildcards d (codes.insert code entry.2) words

def addWildcardPhrase (s : MiningState) (pattern : List UInt8) (wildcardPos : ℕ)
    (words : List (Sigma fun _ : Word => UInt32)) (totalOccurrences : UInt32) : MiningState :=
  let phraseWords := splitWords pattern
  let (wordCodes, main) := codesOf (· == star) s.main phraseWords
  -- The wildcard is no step of the path.
  let path := phraseWords.filter (· != star)
  let (wildcardCodes, main) :=
    recordWildcards main (s.phraseTrieRoot.infoAt {} path).wildcardCodes words
  let phraseDecode := s.phraseDecode ++ [⟨wordCodes, totalOccurrences, true, wildcardPos⟩]
  { main
    phraseTrieRoot := s.phraseTrieRoot.modifyAt {} (fun info =>
      { info with
        hasWildcard := true
        wildcardPos
        isEnd := true
        frequency := totalOccurrences
        wordCodes
        wildcardCodes
        phraseId := UInt32.ofNat (phraseDecode.length - 1) }) path
    phraseDecode
    nonRepeatedPhrases :=
      if totalOccurrences = 1 then s.nonRepeatedPhrases + 1 else s.nonRepeatedPhrases }

def minPhraseFreq : UInt32 := 2

def analyzePattern (s : MiningState) (pattern : List UInt8) (wildcardPos : ℕ)
    (words : List (Sigma fun _ : Word => UInt32)) : MiningState :=
  let totalOccurrences := words.foldl (fun total entry => total + entry.2) 0
  if minPhraseFreq ≤ totalOccurrences then
    addWildcardPhrase s pattern wildcardPos words totalOccurrences
  else s

def findWildcardPhrases (o : Orders) (tokens : List Word) (s : MiningState) : MiningState :=
  (o.patterns.run (wildcardPatterns tokens).entries).foldl (fun s patternEntry =>
    ((o.positions patternEntry.1).run patternEntry.2.entries).foldl (fun s posEntry =>
      analyzePattern s patternEntry.1 posEntry.1
        ((o.words patternEntry.1 posEntry.1).run posEntry.2.entries)) s) s

def addRegularPhrase (s : MiningState) (ngram : List UInt8) (frequency : UInt32) : MiningState :=
  let phraseWords := splitWords ngram
  let (wordCodes, main) := codesOf (fun _ => false) s.main phraseWords
  let phraseDecode := s.phraseDecode ++ [⟨wordCodes, frequency, false, 0⟩]
  { main
    phraseTrieRoot := s.phraseTrieRoot.modifyAt {} (fun info =>
      { info with
        isEnd := true
        frequency
        wordCodes
        phraseId := UInt32.ofNat (phraseDecode.length - 1) }) phraseWords
    phraseDecode
    nonRepeatedPhrases :=
      if frequency = 1 then s.nonRepeatedPhrases + 1 else s.nonRepeatedPhrases }

def ngramFreqs (tokens : List Word) : AList fun _ : List UInt8 => UInt32 :=
  tally ((buildNgrams tokens 2 5).map joinWords)

def findRegularPhrases (o : Orders) (tokens : List Word) (s : MiningState) : MiningState :=
  (o.ngrams.run (ngramFreqs tokens).entries).foldl (fun s entry =>
    if minPhraseFreq ≤ entry.2 ∨ (entry.2 = 1 ∧ (ngramFreqs tokens).entries.length < 1000) then
      addRegularPhrase s entry.1 entry.2
    else s) s

/-- The two passes, from a dictionary and no phrases. -/
def minePhrases (o : Orders) (tokens : List Word) (main : MainDict) : MiningState :=
  findRegularPhrases o tokens
    (findWildcardPhrases o tokens ⟨main, Trie.leaf {}, [], 0⟩)

end HashCompress.PhraseMining
