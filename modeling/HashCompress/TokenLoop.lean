import HashCompress.TokenCodec
import HashCompress.DictionaryFile
import HashCompress.WordText

/-!
# The decompression loop

The local dictionary in front of the tokens, the token loop of `decompress` and when it ends.
-/
namespace HashCompress.TokenLoop

open BitList BitIO WordText CodeTables TokenCodec DictionaryFile

def readChars : ℕ → BitReader → Word × BitReader
  | 0, r => ([], r)
  | n + 1, r =>
    let (c, r) := r.readBits 8
    let (word, r) := readChars n r
    (UInt8.ofNat c :: word, r)

def readLocalWords : ℕ → BitReader → List Word × BitReader
  | 0, r => ([], r)
  | n + 1, r =>
    let (wordLen, r) := r.readBits 8
    let (word, r) := readChars wordLen r
    let (words, r) := readLocalWords n r
    (word :: words, r)

def readLocalDictionary (r : BitReader) : List Word × BitReader :=
  let (localDictSize, r) := r.readBits 16
  readLocalWords localDictSize r

/-- The tables that `decompress` works with: the loaded dictionaries, the local dictionary and the
widths computed from their sizes. -/
def decodeTables (mainDecode : List Word) (phraseDecode : List PhraseInfo)
    (localDecode : List Word) : DecodeTables where
  mainDecode := mainDecode
  mainWidth := codeWidth mainDecode.length
  localDecode := localDecode
  localWidth := codeWidth localDecode.length
  phraseDecode := phraseDecode
  phraseWidth := codeWidth phraseDecode.length

/-- How the loop ended: by an error, or because `has_more` was false; and the output file. -/
structure LoopEnd where
  error : Option ReadError
  output : List UInt8
  deriving DecidableEq, Repr

/-- At most `fuel` passes of the token loop; `none` if it is still running. -/
def tokenLoop (d : DecodeTables) : ℕ → BitReader → List UInt8 → Option LoopEnd
  | 0, _, _ => none
  | fuel + 1, r, out =>
    if r.hasMore then
      match readToken d r with
      | .error failure =>
        some ⟨some failure.error, out ++ failure.written.flatMap fun word => word ++ [32]⟩
      | .ok (words, r) =>
        tokenLoop d fuel r (out ++ joinWords words ++ if r.hasMore then [32] else [])
    else some ⟨none, out⟩

/-- The tables and the reader with which the token loop starts. -/
def loopStart (u : Uninit) (dictText buffer : List UInt8) : DecodeTables × BitReader :=
  let (mainDecode, phraseDecode) := loadDictionaries u dictText
  let (localDecode, r) := readLocalDictionary ⟨buffer, 0, 0⟩
  (decodeTables mainDecode phraseDecode localDecode, r)

/-- Behind finitely many items of the bits comes one that is none: a code outside its dictionary,
a wildcard phrase without its wildcard word, or a phrase with a code outside the main dictionary. -/
inductive MalformedItem (d : DecodeTables) : List Bool → Prop where
  | here {bits : List Bool} (hne : bits ≠ []) (hparse : parseItem d bits = none) :
      MalformedItem d bits
  | later {bits rest : List Bool} {words : List Word} (hparse : parseItem d bits = some (words, rest))
      (h : MalformedItem d rest) : MalformedItem d bits

lemma readChars_ok (n : ℕ) {r : BitReader} (h : r.Ok) : (readChars n r).2.Ok := by
  induction n generalizing r with
  | zero => exact h
  | succ n ih => exact ih (r.readBits_ok h 8)

lemma readLocalWords_ok (n : ℕ) {r : BitReader} (h : r.Ok) : (readLocalWords n r).2.Ok := by
  induction n generalizing r with
  | zero => exact h
  | succ n ih => exact ih (readChars_ok _ (r.readBits_ok h 8))

lemma readLocalWords_length (n : ℕ) (r : BitReader) : (readLocalWords n r).1.length = n := by
  induction n generalizing r with
  | zero => rfl
  | succ n ih =>
    simp only [readLocalWords, List.length_cons]
    rw [ih]

lemma loopStart_ok (u : Uninit) (dictText buffer : List UInt8) :
    (loopStart u dictText buffer).2.Ok :=
  readLocalWords_ok _ (BitReader.readBits_ok (BitReader.ok_start buffer 0) 16)

/-- The loop never sees `has_more` false. -/
lemma tokenLoop_error_ne_none {d : DecodeTables} {fuel : ℕ} {r : BitReader} (h : r.Ok)
    {out : List UInt8} {e : LoopEnd} (hend : tokenLoop d fuel r out = some e) : e.error ≠ none := by
  induction fuel generalizing r out with
  | zero => simp [tokenLoop] at hend
  | succ fuel ih =>
    have hsim := simulates_readToken d h
    rw [tokenLoop, if_pos (r.hasMore_of_ok h)] at hend
    cases hread : readToken d r with
    | error failure =>
      simp only [hread, Option.some.injEq] at hend
      simp [← hend]
    | ok next =>
      cases hparse : parseItem d r.rest with
      | none => simp [hread, hparse, Simulates] at hsim
      | some found =>
        rw [hread, hparse] at hsim
        rw [hread] at hend
        exact ih hsim.2.1 hend

lemma parseItem_nil {d : DecodeTables} : (parseItem d []).isSome ↔ d.mainDecode ≠ [] := by
  have hfield : ∀ n, field n [] = 0 := fun n => by simp [field]
  simp only [parseItem, hfield, if_true, List.drop_nil, Option.isSome_map]
  cases d.mainDecode <;> simp

lemma tokenLoop_step {d : DecodeTables} {r : BitReader} (h : r.Ok) {words : List Word}
    {rest : List Bool} (hparse : parseItem d r.rest = some (words, rest)) (out : List UInt8) :
    ∃ r' out', r'.Ok ∧ r'.rest = rest ∧
      ∀ fuel, tokenLoop d (fuel + 1) r out = tokenLoop d fuel r' out' := by
  obtain ⟨r', hread, hok, hrest⟩ := (readToken_ok_iff h).mpr hparse
  refine ⟨r', out ++ joinWords words ++ if r'.hasMore then [32] else [], hok, hrest, fun fuel => ?_⟩
  rw [tokenLoop, if_pos (r.hasMore_of_ok h), hread]

lemma tokenLoop_stop {d : DecodeTables} {r : BitReader} (h : r.Ok)
    (hparse : parseItem d r.rest = none) (out : List UInt8) :
    ∃ e, tokenLoop d 1 r out = some e := by
  obtain ⟨failure, hread⟩ := (readToken_error_iff h).mpr hparse
  rw [tokenLoop, if_pos (r.hasMore_of_ok h), hread]
  exact ⟨_, rfl⟩

/-- Behind the last bit the reader delivers zeros, which are the first main word over and over. -/
lemma tokenLoop_runs {d : DecodeTables} (hmain : d.mainDecode ≠ []) (fuel : ℕ) {r : BitReader}
    (h : r.Ok) (hgood : ¬ MalformedItem d r.rest) (out : List UInt8) :
    tokenLoop d fuel r out = none := by
  induction fuel generalizing r out with
  | zero => rfl
  | succ fuel ih =>
    cases hparse : parseItem d r.rest with
    | none =>
      by_cases hnil : r.rest = []
      · have hsome := parseItem_nil.mpr hmain
        rw [← hnil, hparse] at hsome
        cases hsome
      · exact absurd (.here hnil hparse) hgood
    | some found =>
      obtain ⟨words, rest⟩ := found
      obtain ⟨r', out', hok, rfl, hstep⟩ := tokenLoop_step h hparse out
      rw [hstep]
      exact ih hok (fun hbad => hgood (.later hparse hbad)) out'

lemma tokenLoop_ends_of_malformed {d : DecodeTables} {bits : List Bool} (hbad : MalformedItem d bits)
    {r : BitReader} (h : r.Ok) (hrest : r.rest = bits) (out : List UInt8) :
    ∃ fuel e, tokenLoop d fuel r out = some e := by
  induction hbad generalizing r out with
  | here hne hparse =>
    subst hrest
    exact ⟨1, tokenLoop_stop h hparse out⟩
  | later hparse hbad ih =>
    subst hrest
    obtain ⟨r', out', hok, hr', hstep⟩ := tokenLoop_step h hparse out
    obtain ⟨fuel, e, hend⟩ := ih hok hr' out'
    exact ⟨fuel + 1, e, (hstep fuel).trans hend⟩

lemma parseSlot_drop {d : DecodeTables} {p : PhraseInfo} {dict words : List Word} {width : ℕ}
    {bits rest : List Bool} (hparse : parseSlot d p dict width bits = some (words, rest)) :
    rest = bits.drop width := by
  unfold parseSlot at hparse
  simp only [Option.bind_eq_bind, Option.bind_eq_some_iff, Option.some.injEq, Prod.mk.injEq] at hparse
  obtain ⟨w, -, phrase, -, -, rfl⟩ := hparse
  rfl

/-- Every item takes at least one bit. -/
lemma parseItem_drop {d : DecodeTables} {bits rest : List Bool} {words : List Word}
    (hparse : parseItem d bits = some (words, rest)) : ∃ n, rest = bits.drop (n + 1) := by
  unfold parseItem at hparse
  split at hparse
  · obtain ⟨w, -, heq⟩ := Option.map_eq_some_iff.mp hparse
    cases heq
    exact ⟨d.mainWidth, by rw [List.drop_drop, Nat.add_comm]⟩
  · split at hparse
    · obtain ⟨w, -, heq⟩ := Option.map_eq_some_iff.mp hparse
      cases heq
      exact ⟨d.localWidth + 1, by rw [List.drop_drop, Nat.add_comm]⟩
    · split at hparse
      · cases hparse
      · dsimp only at hparse
        split at hparse
        · split at hparse
          · split at hparse <;> rw [parseSlot_drop hparse] <;> simp only [List.drop_drop]
            · exact ⟨d.phraseWidth + 4 + d.mainWidth, by congr 1; omega⟩
            · exact ⟨d.phraseWidth + 4 + d.localWidth, by congr 1; omega⟩
          · cases hparse
        · obtain ⟨phrase, -, heq⟩ := Option.map_eq_some_iff.mp hparse
          cases heq
          exact ⟨d.phraseWidth + 1, by rw [List.drop_drop, Nat.add_comm]⟩

lemma tokenLoop_ends_of_no_main {d : DecodeTables} (hmain : d.mainDecode = []) (n : ℕ)
    {r : BitReader} (h : r.Ok) (hlen : r.rest.length ≤ n) (out : List UInt8) :
    ∃ fuel e, tokenLoop d fuel r out = some e := by
  induction n generalizing r out with
  | zero =>
    have hnil : r.rest = [] := List.eq_nil_of_length_eq_zero (by omega)
    refine ⟨1, tokenLoop_stop h ?_ out⟩
    rw [← Option.not_isSome_iff_eq_none, hnil, parseItem_nil]
    simpa using hmain
  | succ n ih =>
    cases hparse : parseItem d r.rest with
    | none => exact ⟨1, tokenLoop_stop h hparse out⟩
    | some found =>
      obtain ⟨words, rest⟩ := found
      obtain ⟨k, hk⟩ := parseItem_drop hparse
      obtain ⟨r', out', hok, hr', hstep⟩ := tokenLoop_step h hparse out
      have hshort : r'.rest.length ≤ n := by
        rw [hr', hk, List.length_drop]
        omega
      obtain ⟨fuel, e, hend⟩ := ih hok hshort out'
      exact ⟨fuel + 1, e, (hstep fuel).trans hend⟩

/-- The token loop ends exactly when the main dictionary is empty or an item is malformed, and
then by an error; it never ends because the reader runs out of bits. -/
theorem tokenLoop_ends_iff (u : Uninit) (dictText buffer : List UInt8) :
    ((∃ fuel e, tokenLoop (loopStart u dictText buffer).1 fuel (loopStart u dictText buffer).2 [] =
        some e) ↔
      (loopStart u dictText buffer).1.mainDecode = [] ∨
        MalformedItem (loopStart u dictText buffer).1 (loopStart u dictText buffer).2.rest) ∧
    ∀ fuel out, tokenLoop (loopStart u dictText buffer).1 fuel (loopStart u dictText buffer).2 [] ≠
      some ⟨none, out⟩ := by
  have hok := loopStart_ok u dictText buffer
  generalize loopStart u dictText buffer = start at hok ⊢
  obtain ⟨d, r⟩ := start
  refine ⟨⟨?_, ?_⟩, fun fuel out hend => tokenLoop_error_ne_none hok hend rfl⟩
  · rintro ⟨fuel, e, hend⟩
    by_contra hcond
    rw [not_or] at hcond
    rw [tokenLoop_runs hcond.1 fuel hok hcond.2 []] at hend
    cases hend
  · rintro (hmain | hbad)
    · exact tokenLoop_ends_of_no_main hmain _ hok le_rfl []
    · exact tokenLoop_ends_of_malformed hbad hok rfl []

lemma not_malformedItem_nil {d : DecodeTables} : ¬ MalformedItem d [] := by
  intro hbad
  generalize hbits : ([] : List Bool) = bits at hbad
  induction hbad with
  | here hne hparse => exact hne hbits.symm
  | later hparse hbad ih =>
    obtain ⟨n, hn⟩ := parseItem_drop hparse
    subst hbits
    exact ih (by rw [hn, List.drop_nil])

def zeroUninit : Uninit := ⟨0, 0, fun _ => 0, fun _ => 0, fun _ _ => 0⟩

/-- The dictionary file of the single word `a`. -/
def oneWordText : List UInt8 := writeDictionaries [[0x61]] []

/-- Two zero bytes are an empty local dictionary and no tokens. -/
theorem tokenLoop_runs_oneWord : ¬ ∃ fuel e,
    tokenLoop (loopStart zeroUninit oneWordText [0, 0]).1 fuel
      (loopStart zeroUninit oneWordText [0, 0]).2 [] = some e := by
  rintro ⟨fuel, e, hend⟩
  have hload : (loadDictionaries zeroUninit oneWordText).1 = [[0x61]] :=
    (loadDictionaries_written zeroUninit (by decide) (by decide) (by decide) (by decide)).1
  have hmain : (loopStart zeroUninit oneWordText [0, 0]).1.mainDecode ≠ [] := by
    have hfield : (loopStart zeroUninit oneWordText [0, 0]).1.mainDecode =
        (loadDictionaries zeroUninit oneWordText).1 := rfl
    rw [hfield, hload]
    simp
  have hrest : (loopStart zeroUninit oneWordText [0, 0]).2.rest = [] := by
    have hreader : (loopStart zeroUninit oneWordText [0, 0]).2 =
        (readLocalDictionary ⟨[0, 0], 0, 0⟩).2 := rfl
    rw [hreader]
    decide
  have hgood : ¬ MalformedItem (loopStart zeroUninit oneWordText [0, 0]).1
      (loopStart zeroUninit oneWordText [0, 0]).2.rest := by
    rw [hrest]
    exact not_malformedItem_nil
  rw [tokenLoop_runs hmain fuel (loopStart_ok _ _ _) hgood []] at hend
  cases hend

end HashCompress.TokenLoop
