import HashCompress.PhraseSegment
import HashCompress.TokenLoop

/-!
# The compressor object

`compress` and `decompress` of `TwoTierTextCompressor` with the files they read and write. A run of
`compress` can also index `main_decode_dict` out of range, or never leave a loop whose 32-bit
counter cannot reach the size of the dictionary.
-/
namespace HashCompress.Compressor

open InputStream WordText TallyMap KeyTrie BitIO CodeTables TokenCodec DictionaryFile TokenLoop
open PhraseMining PhraseSegment Tokenizer

structure TwoTierTextCompressor where
  mainEncode : WordMap := ∅
  mainDecode : List Word := []
  mainMaxBitLength : ℕ := 0
  localEncode : WordMap := ∅
  localDecode : List Word := []
  localMaxBitLength : ℕ := 0
  phraseTrieRoot : PhraseNode := Trie.leaf {}
  phraseDecode : List PhraseInfo := []
  phraseMaxBitLength : ℕ := 0
  nonRepeatedPhrases : UInt32 := 0
  wordFrequencies : WordMap := ∅

/-- What the language and its library leave open: the orders of traversal and of equal elements. -/
structure Choices where
  orders : Orders
  sortWords : SortOrder (Word × UInt32) fun a b => a.2 > b.2
  sortPhrases : SortOrder (UInt32 × ℕ) fun a b => a.1 > b.1

/-- The files of a `compress` run: contents, `none` if it cannot be opened, and whether the two
output files can be written. -/
structure CompressFiles where
  dictionary : Option (List UInt8)
  input : Option (List UInt8)
  engDictWritable : Bool := true
  outputWritable : Bool := true

inductive CompressError where
  | inputFile
  | dictionaryWords
  | engDict
  | write (e : WriteError)
  | outputFile
  deriving DecidableEq, Repr

def CompressError.message : CompressError → String
  | .inputFile => "Error opening input file: "
  | .dictionaryWords => "Failed to load dictionary words from: "
  | .engDict => "Failed to write dictionaries to file: eng.dict"
  | .write e => e.message.1
  | .outputFile => "Error writing compressed data to file: "

inductive CompressStatus where
  | success
  | failed (e : CompressError)
  | undefinedIndex
  | diverges
  deriving DecidableEq, Repr

structure CompressRun where
  status : CompressStatus
  object : TwoTierTextCompressor
  engDict : Option (List UInt8) := none
  compressed : Option (List UInt8) := none

def loadDictionaryWords : Option (List UInt8) → List Word
  | none => []
  | some content => ((content.splitOn 10).filter (· ≠ [])).map fun word => word.map toLower

/-- The words of the list by falling frequency in the text; a word that is not there counts once. -/
def mainWords (sort : SortOrder (Word × UInt32) fun a b => a.2 > b.2) (frequencies : WordMap)
    (dictWords : List Word) : List Word :=
  (sort.run (dictWords.map fun word => (word, (frequencies.lookup word).getD 1))).map Prod.fst

structure PhraseStats where
  total : ℕ
  nonRepeated : UInt32
  regular : UInt32
  wildcard : UInt32
  top : List (UInt32 × List UInt8)

/-- `PhraseInfo::to_string`; `none` if it indexes the words out of range. -/
def phraseText (p : PhraseInfo) (wordDict : List Word) : Option (List UInt8) :=
  (phraseWords wordDict (if p.hasWildcard then some (p.wildcardPos, star) else none) p).map joinWords

/-- The counters `wildcard_phrases` and `regular_phrases` after the loop over the phrases. -/
def countPhrases (phrases : List PhraseInfo) : UInt32 × UInt32 :=
  phrases.foldl (fun counts phrase =>
    if phrase.hasWildcard then (counts.1 + 1, counts.2) else (counts.1, counts.2 + 1)) (0, 0)

def printPhraseStats (sort : SortOrder (UInt32 × ℕ) fun a b => a.1 > b.1)
    (c : TwoTierTextCompressor) : Option PhraseStats := do
  let sortedPhrases := sort.run (c.phraseDecode.zipIdx.map fun x => (x.1.frequency, x.2))
  let top ← (sortedPhrases.take 10).mapM fun x => do
    let p ← c.phraseDecode[x.2]?
    let text ← phraseText p c.mainDecode
    some (p.frequency, text)
  some {
    total := c.phraseDecode.length
    nonRepeated := c.nonRepeatedPhrases
    wildcard := (countPhrases c.phraseDecode).1
    regular := (countPhrases c.phraseDecode).2
    top }

def rareWords (mainEncode : WordMap) (tokens : List Token) : List Word :=
  tokens.filterMap fun
    | .word w => if w ∈ mainEncode then none else some w
    | _ => none

def writeChars (bw : BitWriter) (word : Word) : BitWriter :=
  word.foldl (fun bw c => bw.writeBits (UInt32.ofNat c.toNat) 8) bw

/-- The local dictionary: a 16-bit count, then each word behind its 8-bit length. -/
def writeLocalDictionary (localDecode : List Word) (bw : BitWriter) : BitWriter :=
  localDecode.foldl (fun bw word => writeChars (bw.writeBits (UInt32.ofNat word.length) 8) word)
    (bw.writeBits (UInt32.ofNat localDecode.length) 16)

def encodeTables (c : TwoTierTextCompressor) : EncodeTables where
  mainEncode := c.mainEncode
  mainWidth := c.mainMaxBitLength
  localEncode := c.localEncode
  localWidth := c.localMaxBitLength
  phraseWidth := c.phraseMaxBitLength

/-- Steps 5 to 7: the main dictionary, its code width and the two phrase passes. -/
def learn (ch : Choices) (rawTokens : List Word) (mainDecode : List Word)
    (c : TwoTierTextCompressor) : TwoTierTextCompressor :=
  let s := findRegularPhrases ch.orders rawTokens
    (findWildcardPhrases ch.orders rawTokens
      ⟨⟨buildEncode mainDecode, mainDecode⟩, c.phraseTrieRoot, c.phraseDecode, c.nonRepeatedPhrases⟩)
  { c with
    mainMaxBitLength := codeWidth mainDecode.length
    mainEncode := s.main.encode
    mainDecode := s.main.decode
    phraseTrieRoot := s.phraseTrieRoot
    phraseDecode := s.phraseDecode
    nonRepeatedPhrases := s.nonRepeatedPhrases }

/-- `build_local_dictionary`. -/
def buildLocalDictionary (rare : List Word) (c : TwoTierTextCompressor) : TwoTierTextCompressor :=
  let localDecode := appendNew [] rare
  { c with
    localDecode
    localEncode := buildEncode localDecode
    localMaxBitLength := codeWidth localDecode.length }

/-- Steps 11 and 12: the dictionary file and the compressed data. -/
def writeFiles (files : CompressFiles) (tokens : List Token) (c : TwoTierTextCompressor) :
    CompressRun :=
  if files.engDictWritable then
    let engDict := some (writeDictionaries c.mainDecode c.phraseDecode)
    match writeTokens (encodeTables c) (writeLocalDictionary c.localDecode {}) tokens with
    | .error e => ⟨.failed (.write e), c, engDict, none⟩
    | .ok bw =>
      if files.outputWritable then ⟨.success, c, engDict, some bw.flush.buffer⟩
      else ⟨.failed .outputFile, c, engDict, none⟩
  else ⟨.failed .engDict, c, none, none⟩

def compress (ch : Choices) (files : CompressFiles) (c : TwoTierTextCompressor) : CompressRun :=
  let c := { c with
    phraseTrieRoot := Trie.leaf {}
    phraseDecode := []
    nonRepeatedPhrases := 0 }
  match files.input with
  | none => ⟨.failed .inputFile, c, none, none⟩
  | some text =>
    let rawTokens := tokenizeRaw text
    let c := { c with wordFrequencies := tally rawTokens }
    let dictWords := loadDictionaryWords files.dictionary
    if dictWords = [] then ⟨.failed .dictionaryWords, c, none, none⟩
    else
      let mainDecode := mainWords ch.sortWords c.wordFrequencies dictWords
      if 2 ^ 32 ≤ mainDecode.length then ⟨.diverges, c, none, none⟩
      else
        let c := learn ch rawTokens mainDecode c
        match printPhraseStats ch.sortPhrases c with
        | none => ⟨.undefinedIndex, c, none, none⟩
        | some _ =>
          let processedTokens := processWithPhrases c.phraseTrieRoot rawTokens
          let rare := rareWords c.mainEncode processedTokens
          if 2 ^ 32 ≤ (appendNew [] rare).length then ⟨.diverges, c, none, none⟩
          else writeFiles files processedTokens (buildLocalDictionary rare c)

inductive DecompressError where
  | dictionaryFile
  | compressedFile
  | outputFile
  | read (e : ReadError)
  deriving DecidableEq, Repr

def DecompressError.message : DecompressError → String
  | .dictionaryFile => "Failed to load dictionaries from file: "
  | .compressedFile => "Error opening compressed file: "
  | .outputFile => "Error opening output file: "
  | .read e => e.message

structure DecompressFiles where
  dictionary : Option (List UInt8)
  compressed : Option (List UInt8)
  outputWritable : Bool := true

/-- `error` is `none` if `decompress` returns true. -/
structure DecompressRun where
  error : Option DecompressError
  object : TwoTierTextCompressor
  output : Option (List UInt8) := none

/-- `load_dictionaries` on the object. -/
def load (u : Uninit) (text : List UInt8) (c : TwoTierTextCompressor) : TwoTierTextCompressor :=
  let (mainDecode, phraseDecode) := loadDictionaries u text
  { c with
    mainDecode
    mainEncode := buildEncode mainDecode
    mainMaxBitLength := codeWidth mainDecode.length
    phraseDecode
    phraseMaxBitLength := codeWidth phraseDecode.length }

/-- `decompress` with at most `fuel` passes of the token loop; `none` if it is still running. -/
def decompress (u : Uninit) (fuel : ℕ) (files : DecompressFiles) (c : TwoTierTextCompressor) :
    Option DecompressRun :=
  match files.dictionary with
  | none => some ⟨some .dictionaryFile, c, none⟩
  | some text =>
    let c := load u text c
    match files.compressed with
    | none => some ⟨some .compressedFile, c, none⟩
    | some buffer =>
      if files.outputWritable then
        (tokenLoop (loopStart u text buffer).1 fuel (loopStart u text buffer).2 []).map fun e =>
          ⟨e.error.map .read, c, some e.output⟩
      else some ⟨some .outputFile, c, none⟩

end HashCompress.Compressor
