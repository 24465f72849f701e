import HashCompress.BitIO
import HashCompress.CodeTables

/-!
# The tagged token stream

The token loop of `compress` and the loop body of `decompress`, each with the dictionaries and code
widths it works from. The two sides spell the type tags separately.
-/
namespace HashCompress.TokenCodec

open BitList BitIO CodeTables

structure EncodeTables where
  mainEncode : WordMap
  mainWidth : ℕ
  localEncode : WordMap
  localWidth : ℕ
  phraseWidth : ℕ

inductive WriteError where
  | word (w : Word)
  | wildcard (w : Word)
  deriving DecidableEq, Repr

def WriteError.message : WriteError → String × Word
  | .word w => ("Error: Word not found in either dictionary: ", w)
  | .wildcard w => ("Error: Wildcard word not found in either dictionary: ", w)

/-- A word and its type bit: 0 and the main code, or 1 and the local code. -/
def writeWord (e : EncodeTables) (missing : Word → WriteError) (w : Word) (bw : BitWriter) :
    Except WriteError BitWriter :=
  match e.mainEncode.lookup w with
  | some code => .ok ((bw.writeBits 0 1).writeBits code e.mainWidth)
  | none =>
    match e.localEncode.lookup w with
    | some code => .ok ((bw.writeBits 1 1).writeBits code e.localWidth)
    | none => .error (missing w)

def writeToken (e : EncodeTables) (bw : BitWriter) : Token → Except WriteError BitWriter
  | .word w => writeWord e .word w bw
  | .phrase phraseId => .ok ((bw.writeBits 2 2).writeBits phraseId e.phraseWidth)
  | .wildcard w _ => writeWord e .wildcard w (bw.writeBits 3 2)

def writeTokens (e : EncodeTables) (bw : BitWriter) (tokens : List Token) :
    Except WriteError BitWriter := tokens.foldlM (writeToken e) bw

structure DecodeTables where
  mainDecode : List Word
  mainWidth : ℕ
  localDecode : List Word
  localWidth : ℕ
  phraseDecode : List PhraseInfo
  phraseWidth : ℕ
  deriving DecidableEq, Repr

inductive ReadError where
  | mainCode (code : ℕ)
  | localCode (code : ℕ)
  | phraseId (id : ℕ)
  | wildcardMissing
  | wildcardTag
  | wildcardMainCode (code : ℕ)
  | wildcardLocalCode (code : ℕ)
  | phraseCode (code : UInt32)
  deriving DecidableEq, Repr

def ReadError.message : ReadError → String
  | .mainCode code => "Invalid word code in main dictionary: " ++ toString code
  | .localCode code => "Invalid word code in local dictionary: " ++ toString code
  | .phraseId id => "Invalid phrase ID: " ++ toString id
  | .wildcardMissing => "Error: Expected wildcard word after wildcard phrase"
  | .wildcardTag => "Error: Expected wildcard token after wildcard phrase"
  | .wildcardMainCode code => "Invalid wildcard word code in main dictionary: " ++ toString code
  | .wildcardLocalCode code => "Invalid wildcard word code in local dictionary: " ++ toString code
  | .phraseCode code => "Invalid word code in phrase: " ++ toString code

/-- An error, with the words of the current token that are already in the output file. -/
structure ReadFailure where
  error : ReadError
  written : List Word := []
  deriving DecidableEq, Repr

def readWord (words : List Word) (width : ℕ) (invalid : ℕ → ReadError) (r : BitReader) :
    Except ReadFailure (Word × BitReader) :=
  let (code, r) := r.readBits width
  match words[code]? with
  | some w => .ok (w, r)
  | none => .error ⟨invalid code, []⟩

/-- The output loop of a phrase from index `i` on: the words it writes, and the code at which it
gives up. `slot` is the wildcard position and its word. -/
def expandCodes (mainDecode : List Word) (slot : Option (ℕ × Word)) :
    ℕ → List UInt32 → List Word × Option UInt32
  | _, [] => ([], none)
  | i, code :: codes =>
    let word := match slot with
      | some (pos, w) => if i = pos then some w else mainDecode[code.toNat]?
      | none => mainDecode[code.toNat]?
    match word with
    | some w =>
      let (words, bad) := expandCodes mainDecode slot (i + 1) codes
      (w :: words, bad)
    | none => ([], some code)

def readPhrase (d : DecodeTables) (slot : Option (ℕ × Word)) (p : PhraseInfo) (r : BitReader) :
    Except ReadFailure (List Word × BitReader) :=
  match expandCodes d.mainDecode slot 0 p.wordCodes with
  | (words, none) => .ok (words, r)
  | (words, some code) => .error ⟨.phraseCode code, words⟩

/-- One pass of the token loop of `decompress`: the words it writes. -/
def readToken (d : DecodeTables) (r : BitReader) : Except ReadFailure (List Word × BitReader) := do
  let (typeBits, r) := r.readBits 1
  if typeBits = 0 then
    let (w, r) ← readWord d.mainDecode d.mainWidth .mainCode r
    pure ([w], r)
  else
    let (additionalTypeBit, r) := r.readBits 1
    if additionalTypeBit = 0 then
      let (w, r) ← readWord d.localDecode d.localWidth .localCode r
      pure ([w], r)
    else if additionalTypeBit = 1 then
      let (phraseId, r) := r.readBits d.phraseWidth
      match d.phraseDecode[phraseId]? with
      | none => .error ⟨.phraseId phraseId, []⟩
      | some p =>
        if p.hasWildcard then
          if !r.hasMore then .error ⟨.wildcardMissing, []⟩
          else
            let (wildcardType, r) := r.readBits 2
            if wildcardType ≠ 3 then .error ⟨.wildcardTag, []⟩
            else
              let (wordDictType, r) := r.readBits 1
              let (w, r) ←
                if wordDictType = 0 then readWord d.mainDecode d.mainWidth .wildcardMainCode r
                else readWord d.localDecode d.localWidth .wildcardLocalCode r
              readPhrase d (some (p.wildcardPos, w)) p r
        else readPhrase d none p r
    else pure ([], r)

/-! ### The same pass over a list of bits -/

/-- The number in the next `n` bits; at the end of the bits fewer are read. -/
def field (n : ℕ) (bits : List Bool) : ℕ := bitsValue (bits.take n) % 2 ^ 32

def phraseWords (mainDecode : List Word) (slot : Option (ℕ × Word)) (p : PhraseInfo) :
    Option (List Word) :=
  match expandCodes mainDecode slot 0 p.wordCodes with
  | (words, none) => some words
  | (_, some _) => none

def parseSlot (d : DecodeTables) (p : PhraseInfo) (words : List Word) (width : ℕ)
    (bits : List Bool) : Option (List Word × List Bool) := do
  let w ← words[field width bits]?
  let phrase ← phraseWords d.mainDecode (some (p.wildcardPos, w)) p
  some (phrase, bits.drop width)

/-- The item at the head of the bits: its words and the bits behind it. -/
def parseItem (d : DecodeTables) (bits : List Bool) : Option (List Word × List Bool) :=
  if field 1 bits = 0 then
    (d.mainDecode[field d.mainWidth (bits.drop 1)]?).map
      fun w => ([w], (bits.drop 1).drop d.mainWidth)
  else if field 1 (bits.drop 1) = 0 then
    (d.localDecode[field d.localWidth (bits.drop 2)]?).map
      fun w => ([w], (bits.drop 2).drop d.localWidth)
  else
    match d.phraseDecode[field d.phraseWidth (bits.drop 2)]? with
    | none => none
    | some p =>
      let bits := (bits.drop 2).drop d.phraseWidth
      if p.hasWildcard then
        if field 2 bits = 3 then
          if field 1 (bits.drop 2) = 0 then parseSlot d p d.mainDecode d.mainWidth (bits.drop 3)
          else parseSlot d p d.localDecode d.localWidth (bits.drop 3)
        else none
      else (phraseWords d.mainDecode none p).map fun words => (words, bits)

lemma expandCodes_length {words : List Word} {slot : Option (ℕ × Word)} {codes : List UInt32}
    {i : ℕ} {out : List Word} (hexp : expandCodes words slot i codes = (out, none)) :
    out.length = codes.length := by
  induction codes generalizing i out with
  | nil =>
    simp only [expandCodes, Prod.mk.injEq, and_true] at hexp
    simp [← hexp]
  | cons code codes ih =>
    unfold expandCodes at hexp
    dsimp only at hexp
    split at hexp
    · rcases hrest : expandCodes words slot (i + 1) codes with ⟨rest, bad⟩
      rw [hrest] at hexp
      simp only [Prod.mk.injEq] at hexp
      obtain ⟨rfl, rfl⟩ := hexp
      simp [ih hrest]
    · simp at hexp

lemma phraseWords_length {decode : List Word} {slot : Option (ℕ × Word)} {p : PhraseInfo}
    {words : List Word} (hw : phraseWords decode slot p = some words) :
    words.length = p.wordCodes.length := by
  unfold phraseWords at hw
  split at hw
  · rename_i out hexp
    cases hw
    exact expandCodes_length hexp
  · simp at hw

lemma readBits_eq {r : BitReader} (h : r.Ok) (n : ℕ) :
    ∃ r', r.readBits n = (field n r.rest, r') ∧ r'.Ok ∧ r'.rest = r.rest.drop n :=
  ⟨(r.readBits n).2, Prod.ext (r.readBits_fst h n) rfl, r.readBits_ok h n, r.readBits_rest h n⟩

/-- What a reading pass and a parse agree on: both fail, or both succeed with the same words, and
the reader stands at the bits that the parse leaves. -/
def Simulates (x : Except ReadFailure (List Word × BitReader))
    (y : Option (List Word × List Bool)) : Prop :=
  match x, y with
  | .ok (words, r), some (words', bits) => words = words' ∧ r.Ok ∧ r.rest = bits
  | .error _, none => True
  | _, _ => False

lemma simulates_readPhrase (d : DecodeTables) (slot : Option (ℕ × Word)) (p : PhraseInfo)
    {r : BitReader} (h : r.Ok) :
    Simulates (readPhrase d slot p r) ((phraseWords d.mainDecode slot p).map fun words => (words, r.rest)) := by
  unfold readPhrase phraseWords
  rcases expandCodes d.mainDecode slot 0 p.wordCodes with ⟨words, bad⟩
  cases bad with
  | none => exact ⟨rfl, h, rfl⟩
  | some code => trivial

lemma simulates_readWord (words : List Word) (width : ℕ) (invalid : ℕ → ReadError) {r : BitReader}
    (h : r.Ok) :
    Simulates (do let (w, r) ← readWord words width invalid r; pure ([w], r))
      ((words[field width r.rest]?).map fun w => ([w], r.rest.drop width)) := by
  obtain ⟨r', heq, hok, hrest⟩ := readBits_eq h width
  unfold readWord
  rw [heq]
  cases hw : words[field width r.rest]? with
  | none => simp [hw, Simulates, bind, Except.bind]
  | some w => simp [hw, Simulates, bind, Except.bind, pure, Except.pure, hok, hrest]

lemma simulates_readSlot (d : DecodeTables) (p : PhraseInfo) (words : List Word) (width : ℕ)
    (invalid : ℕ → ReadError) {r : BitReader} (h : r.Ok) :
    Simulates (do
        let (w, r) ← readWord words width invalid r
        readPhrase d (some (p.wildcardPos, w)) p r)
      (parseSlot d p words width r.rest) := by
  obtain ⟨r', heq, hok, hrest⟩ := readBits_eq h width
  unfold readWord parseSlot
  rw [heq]
  cases hw : words[field width r.rest]? with
  | none => simp [hw, Simulates, bind, Except.bind]
  | some w =>
    have hphrase := simulates_readPhrase d (some (p.wildcardPos, w)) p hok
    rw [hrest] at hphrase
    cases hexp : phraseWords d.mainDecode (some (p.wildcardPos, w)) p with
    | none =>
      rw [hexp] at hphrase
      simpa [hw, bind, Except.bind, hexp] using hphrase
    | some phrase =>
      rw [hexp] at hphrase
      simpa [hw, bind, Except.bind, hexp] using hphrase

lemma field_one (bits : List Bool) : field 1 bits = (bits.headD false).toNat := by
  cases bits with
  | nil => rfl
  | cons b bits => cases b <;> simp [field, bitsValue]

/-- One pass of the reading loop parses the item at the head of the unread bits. -/
theorem simulates_readToken (d : DecodeTables) {r : BitReader} (h : r.Ok) :
    Simulates (readToken d r) (parseItem d r.rest) := by
  obtain ⟨r₁, heq₁, hok₁, hrest₁⟩ := readBits_eq h 1
  unfold readToken parseItem
  rw [heq₁]
  by_cases hmain : field 1 r.rest = 0
  · have hword := simulates_readWord d.mainDecode d.mainWidth .mainCode hok₁
    rw [hrest₁] at hword
    simpa only [hmain, if_true] using hword
  · obtain ⟨r₂, heq₂, hok₂, hrest₂⟩ := readBits_eq hok₁ 1
    rw [hrest₁] at heq₂
    rw [hrest₁, List.drop_drop] at hrest₂
    simp only [hmain, if_false, heq₂]
    by_cases hlocal : field 1 (r.rest.drop 1) = 0
    · have hword := simulates_readWord d.localDecode d.localWidth .localCode hok₂
      rw [hrest₂] at hword
      simpa only [hlocal, if_true] using hword
    · have hone : field 1 (r.rest.drop 1) = 1 := by
        rw [field_one] at hlocal ⊢
        cases hb : (r.rest.drop 1).headD false with
        | false => exact absurd (by rw [hb]; rfl) hlocal
        | true => rfl
      obtain ⟨r₃, heq₃, hok₃, hrest₃⟩ := readBits_eq hok₂ d.phraseWidth
      rw [hrest₂] at heq₃ hrest₃
      simp only [hone, one_ne_zero, if_false, if_true, heq₃]
      cases hp : d.phraseDecode[field d.phraseWidth (r.rest.drop 2)]? with
      | none => simp [Simulates]
      | some p =>
        cases hwild : p.hasWildcard with
        | false =>
          have hphrase := simulates_readPhrase d none p hok₃
          rw [hrest₃] at hphrase
          simpa [hp, hwild] using hphrase
        | true =>
          obtain ⟨r₄, heq₄, hok₄, hrest₄⟩ := readBits_eq hok₃ 2
          rw [hrest₃] at heq₄ hrest₄
          simp only [hwild, if_true, r₃.hasMore_of_ok hok₃, Bool.not_true, Bool.false_eq_true,
            if_false, heq₄]
          by_cases htag : field 2 ((r.rest.drop 2).drop d.phraseWidth) = 3
          · obtain ⟨r₅, heq₅, hok₅, hrest₅⟩ := readBits_eq hok₄ 1
            rw [hrest₄] at heq₅
            rw [hrest₄, List.drop_drop] at hrest₅
            simp only [htag, ne_eq, not_true_eq_false, if_false, if_true, heq₅]
            have hslot := fun words width invalid =>
              simulates_readSlot d p words width invalid hok₅
            rw [hrest₅] at hslot
            split
            · exact hslot d.mainDecode d.mainWidth .wildcardMainCode
            · exact hslot d.localDecode d.localWidth .wildcardLocalCode
          · simp only [htag, ne_eq, not_false_eq_true, if_true, if_false, Simulates]

theorem readToken_ok_iff {d : DecodeTables} {r : BitReader} (h : r.Ok) {words : List Word}
    {bits : List Bool} :
    (∃ r', readToken d r = .ok (words, r') ∧ r'.Ok ∧ r'.rest = bits) ↔
      parseItem d r.rest = some (words, bits) := by
  have hsim := simulates_readToken d h
  rcases hread : readToken d r with failure | ⟨words', r'⟩ <;>
    rcases hparse : parseItem d r.rest with - | ⟨words'', bits'⟩ <;>
    simp only [hread, hparse, Simulates] at hsim
  · simp
  · obtain ⟨rfl, hok, rfl⟩ := hsim
    constructor
    · rintro ⟨r'', heq, -, rfl⟩
      cases heq
      rfl
    · intro heq
      cases heq
      exact ⟨r', rfl, hok, rfl⟩

theorem readToken_error_iff {d : DecodeTables} {r : BitReader} (h : r.Ok) :
    (∃ failure, readToken d r = .error failure) ↔ parseItem d r.rest = none := by
  have hsim := simulates_readToken d h
  rcases hread : readToken d r with failure | ⟨words', r'⟩ <;>
    rcases hparse : parseItem d r.rest with - | ⟨words'', bits'⟩ <;>
    simp [hread, hparse, Simulates] at hsim ⊢

end HashCompress.TokenCodec
