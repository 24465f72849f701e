import HashCompress.CompressedFormat
import HashCompress.PhraseFree
import HashCompress.WildcardWords

/-!
# The decompression loop as it runs

The state of the token loop after every number of passes, as a parse of the bits, and how far a
compressed text is restored before the loop goes astray.
-/
namespace HashCompress.Compressor

open BitList BitIO WordText TallyMap KeyTrie CodeTables TokenCodec CodecAgreement TokenLoop
open PhraseMining PhraseSegment Tokenizer DictionaryFile

/-- The loop between two passes, with what is in the output file; or how it ended. -/
inductive LoopState where
  | running (r : BitReader) (out : List UInt8)
  | ended (e : LoopEnd)

def loopPass (d : DecodeTables) : LoopState → LoopState
  | .ended e => .ended e
  | .running r out =>
    if r.hasMore then
      match readToken d r with
      | .error failure =>
        .ended ⟨some failure.error, out ++ failure.written.flatMap fun word => word ++ [32]⟩
      | .ok (words, r) => .running r (out ++ joinWords words ++ if r.hasMore then [32] else [])
    else .ended ⟨none, out⟩

def LoopState.result : LoopState → Option LoopEnd
  | .running _ _ => none
  | .ended e => some e

lemma iterate_loopPass_ended (d : DecodeTables) (e : LoopEnd) (n : ℕ) :
    (loopPass d)^[n] (.ended e) = .ended e := Function.iterate_fixed rfl n

/-- The fuelled loop is the result of as many passes. -/
lemma tokenLoop_eq_iterate (d : DecodeTables) (n : ℕ) (r : BitReader) (out : List UInt8) :
    tokenLoop d n r out = ((loopPass d)^[n] (.running r out)).result := by
  induction n generalizing r out with
  | zero => rfl
  | succ n ih =>
    rw [tokenLoop, Function.iterate_succ_apply, loopPass]
    split_ifs
    · cases readToken d r with
      | error failure =>
        dsimp only
        rw [iterate_loopPass_ended]
        rfl
      | ok next => exact ih next.2 _
    · rw [iterate_loopPass_ended]
      rfl

/-- The first `n` items of the bits, and the bits behind them unless an item is malformed. -/
def parseItems (d : DecodeTables) : ℕ → List Bool → List (List Word) × Option (List Bool)
  | 0, bits => ([], some bits)
  | n + 1, bits =>
    match parseItem d bits with
    | none => ([], none)
    | some (words, rest) => (words :: (parseItems d n rest).1, (parseItems d n rest).2)

lemma parseItems_none {d : DecodeTables} {bits : List Bool} (h : parseItem d bits = none) (n : ℕ) :
    parseItems d (n + 1) bits = ([], none) := by
  simp only [parseItems, h]

lemma parseItems_some {d : DecodeTables} {bits rest : List Bool} {words : List Word}
    (h : parseItem d bits = some (words, rest)) (n : ℕ) : parseItems d (n + 1) bits =
      (words :: (parseItems d n rest).1, (parseItems d n rest).2) := by
  simp only [parseItems, h]

/-- The text of an item. -/
def itemText (words : List Word) : List UInt8 := joinWords words ++ [32]

/-- What the loop has done after `n` passes, in terms of the parse. -/
def Refines (d : DecodeTables) (n : ℕ) (bits : List Bool) (out : List UInt8) (s : LoopState) :
    Prop :=
  let text := out ++ (parseItems d n bits).1.flatMap itemText
  match (parseItems d n bits).2 with
  | some rest => ∃ r, s = .running r text ∧ r.Ok ∧ r.rest = rest
  | none => ∃ error, ∃ written : List Word,
      s = .ended ⟨some error, text ++ written.flatMap fun word => word ++ [32]⟩

/-- The loop refines the parse. -/
lemma iterate_refines {d : DecodeTables} (n : ℕ) {r : BitReader} (h : r.Ok) (out : List UInt8) :
    Refines d n r.rest out ((loopPass d)^[n] (.running r out)) := by
  induction n generalizing r out with
  | zero => exact ⟨r, by simp [parseItems], h, rfl⟩
  | succ n ih =>
    rw [Function.iterate_succ_apply, loopPass, if_pos (r.hasMore_of_ok h)]
    cases hparse : parseItem d r.rest with
    | none =>
      obtain ⟨failure, hread⟩ := (readToken_error_iff h).mpr hparse
      rw [hread]
      dsimp only
      rw [iterate_loopPass_ended]
      simp only [Refines, parseItems_none hparse]
      exact ⟨failure.error, failure.written, by simp⟩
    | some found =>
      obtain ⟨words, rest⟩ := found
      obtain ⟨r', hread, hok, hrest⟩ := (readToken_ok_iff h).mpr hparse
      have hnext := ih hok (out ++ itemText words)
      rw [hrest] at hnext
      rw [hread]
      dsimp only
      rw [if_pos (r'.hasMore_of_ok hok), List.append_assoc]
      simpa only [Refines, parseItems_some hparse, List.flatMap_cons, List.append_assoc,
        itemText] using hnext

/-- `decompress` at every moment, for every dictionary file and every compressed file: after `n`
passes the output file holds the first `n` items of the bits, each with a blank behind it, and the
reader stands behind them; or the loop has ended at the first malformed item with an error, with the
items before it and the words that its own output got to. -/
theorem decompress_refines (u : Uninit) (text buffer : List UInt8) (n : ℕ)
    (c : TwoTierTextCompressor) :
    let d := (loopStart u text buffer).1
    let r := (loopStart u text buffer).2
    let s := (loopPass d)^[n] (.running r [])
    Refines d n r.rest [] s ∧
      decompress u n ⟨some text, some buffer, true⟩ c =
        s.result.map fun e => ⟨e.error.map .read, load u text c, some e.output⟩ := by
  intro d r s
  refine ⟨iterate_refines n (loopStart_ok u text buffer) [], ?_⟩
  simp only [decompress, if_true, s, ← tokenLoop_eq_iterate]
  rfl

/-! ### Main words -/

lemma parseItem_mainWord {e : EncodeTables} {d : DecodeTables} {w : Word} {code : UInt32}
    (hcode : e.mainEncode.lookup w = some code) (hwidth : e.mainWidth = d.mainWidth)
    (hdecode : d.mainDecode[code.toNat]? = some w) (hfits : d.mainDecode.length ≤ 2 ^ d.mainWidth)
    (tail : List Bool) : parseItem d (wordBits e w ++ tail) = some ([w], tail) := by
  simp only [wordBits, hcode, hwidth, List.cons_append, parseItem, field_one, List.headD_cons,
    Bool.toNat_false, if_true, List.drop_one, List.tail_cons,
    field_natBits (code_lt hfits hdecode) code.toNat_lt, hdecode, drop_natBits, Option.map_some]

lemma field_zeros (n m : ℕ) : field n (List.replicate m false) = 0 := by
  have hzero : ∀ k, bitsValue (List.replicate k false) = 0 := by
    intro k
    rw [← natBits_zero, bitsValue_natBits, Nat.zero_mod]
  rw [field, List.take_replicate, hzero, Nat.zero_mod]

/-- Zeros, and the end of the bits, are the first main word over and over. -/
lemma parseItems_zeros {d : DecodeTables} {first : Word} (hfirst : d.mainDecode[0]? = some first)
    (n m : ℕ) : ∃ m', parseItems d n (List.replicate m false) =
      (List.replicate n [first], some (List.replicate m' false)) := by
  induction n generalizing m with
  | zero => exact ⟨m, rfl⟩
  | succ n ih =>
    have hitem : parseItem d (List.replicate m false) =
        some ([first], List.replicate (m - 1 - d.mainWidth) false) := by
      simp only [parseItem, List.drop_replicate, field_zeros, if_true, hfirst, Option.map_some]
    obtain ⟨m', hrest⟩ := ih (m - 1 - d.mainWidth)
    exact ⟨m', by rw [parseItems_some hitem, hrest]; rfl⟩

lemma parseItems_append {d : DecodeTables} {n k : ℕ} {bits rest : List Bool}
    {items : List (List Word)} (h : parseItems d n bits = (items, some rest)) :
    parseItems d (n + k) bits = (items ++ (parseItems d k rest).1, (parseItems d k rest).2) := by
  induction n generalizing bits items with
  | zero =>
    cases h
    simp
  | succ n ih =>
    cases hparse : parseItem d bits with
    | none => simp [parseItems_none hparse] at h
    | some found =>
      obtain ⟨words, next⟩ := found
      rw [parseItems_some hparse, Prod.mk.injEq] at h
      obtain ⟨hitems, hrest⟩ := h
      have hnext := ih (Prod.ext rfl hrest : parseItems d n next = ((parseItems d n next).1, some rest))
      rw [Nat.add_right_comm, parseItems_some hparse, hnext, ← hitems, List.cons_append]

/-- A run of main words is read back, whatever follows it. -/
lemma parseItems_mainWords {e : EncodeTables} {d : DecodeTables} (hwidth : e.mainWidth = d.mainWidth)
    (hmain : ∀ w code, e.mainEncode.lookup w = some code → d.mainDecode[code.toNat]? = some w)
    (hfits : d.mainDecode.length ≤ 2 ^ d.mainWidth) {words : List Word}
    (hwords : ∀ w ∈ words, w ∈ e.mainEncode) (tail : List Bool) :
    parseItems d words.length (words.flatMap (wordBits e) ++ tail) =
      (words.map fun w => [w], some tail) := by
  induction words with
  | nil => rfl
  | cons w words ih =>
    obtain ⟨code, hcode⟩ := Option.isSome_iff_exists.mp
      (AList.lookup_isSome.mpr (hwords w List.mem_cons_self))
    have hitem := parseItem_mainWord hcode hwidth (hmain w code hcode) hfits
      (words.flatMap (wordBits e) ++ tail)
    rw [List.flatMap_cons, List.append_assoc, List.length_cons, parseItems_some hitem,
      ih fun w' hw' => hwords w' (List.mem_cons_of_mem _ hw')]
    rfl

/-! ### The files of a successful run -/

lemma readLocalDictionary_rest {buffer : List UInt8} {words : List Word} {tail : List Bool}
    (hbits : bytesBits buffer = headerBits words ++ tail) (hfew : words.length < 65536)
    (hshort : ∀ w ∈ words, w.length < 256) :
    (readLocalDictionary ⟨buffer, 0, 0⟩).2.rest = tail := by
  have hrest : (⟨buffer, 0, 0⟩ : BitReader).rest =
      natBits 16 words.length ++ (words.flatMap localWordBits ++ tail) := by
    rw [← List.nil_append buffer]
    refine (BitReader.rest_start [] buffer).trans (hbits.trans ?_)
    rw [headerBits, List.append_assoc]
  obtain ⟨hcount, hok, hnext⟩ :=
    BitReader.readBits_natBits (BitReader.ok_start buffer 0) (by omega) hrest
  rw [Nat.mod_eq_of_lt (by omega)] at hcount
  have hread : readLocalDictionary ⟨buffer, 0, 0⟩ =
      readLocalWords words.length (BitReader.readBits ⟨buffer, 0, 0⟩ 16).2 := by
    rw [← hcount]
    rfl
  rw [hread]
  exact (readLocalWords_eq_iff hok hnext).2 hshort

lemma matchTokens_ne_nil (info : NodeInfo) (w : Word) : matchTokens info w ≠ [] := by
  unfold matchTokens
  split_ifs <;> simp

/-- The words before the first phrase are the first tokens of the text, and all of them if no phrase
follows. -/
lemma words_processLoop {root : PhraseNode} {fuel : ℕ} {tokens words : List Word}
    {rest : List Token} (h : processLoop root fuel tokens = words.map .word ++ rest) :
    words <+: tokens ∧ (rest = [] → tokens.length ≤ fuel → words = tokens) := by
  induction words generalizing fuel tokens with
  | nil =>
    refine ⟨List.nil_prefix, fun hnil hfuel => ?_⟩
    cases tokens with
    | nil => rfl
    | cons token tokens =>
      obtain ⟨fuel, rfl⟩ : ∃ n, fuel = n + 1 := Nat.exists_eq_succ_of_ne_zero (by
        simp only [List.length_cons] at hfuel
        omega)
      rw [hnil, processLoop] at h
      cases hmatch : (matchPhrase root (token :: tokens)).lastMatch with
      | some found => simp [hmatch, matchTokens_ne_nil] at h
      | none => simp [hmatch] at h
  | cons w words ih =>
    cases fuel with
    | zero => simp [processLoop] at h
    | succ fuel =>
      cases tokens with
      | nil => simp [processLoop] at h
      | cons token tokens =>
        rw [processLoop] at h
        cases hmatch : (matchPhrase root (token :: tokens)).lastMatch with
        | some found =>
          rw [hmatch] at h
          dsimp only at h
          unfold matchTokens at h
          split_ifs at h <;> simp at h
        | none =>
          rw [hmatch] at h
          simp only [List.map_cons, List.cons_append, List.cons.injEq, Token.word.injEq] at h
          obtain ⟨rfl, h⟩ := h
          obtain ⟨hfront, hall⟩ := ih h
          refine ⟨List.cons_prefix_cons.mpr ⟨rfl, hfront⟩, fun hnil hfuel => ?_⟩
          rw [hall hnil (by simpa using hfuel)]

section Restored

variable {ch : Choices} {text : List UInt8} {main : List Word} {run : CompressRun}
  (h : Succeeded ch text main run)
include h

/-- The reader's main dictionary is the writer's. -/
lemma Succeeded.reader_mainDecode (u : Uninit) (hline : ∀ w ∈ main, w ≠ [] ∧ (10 : UInt8) ∉ w)
    (hmain : knownWords main (tokenizeRaw text) < 2 ^ 32)
    (hphrase : phraseCount (tokenizeRaw text) < 2 ^ 32) (buffer : List UInt8) :
    (loopStart u (run.engDict.getD []) buffer).1.mainDecode = run.object.mainDecode ∧
      (loopStart u (run.engDict.getD []) buffer).1.mainWidth =
        codeWidth run.object.mainDecode.length := by
  have hlines : ∀ w ∈ run.object.mainDecode, w ≠ [] ∧ (10 : UInt8) ∉ w := by
    intro w hw
    rcases (h.mem_mainDecode w).mp hw with hw | hw
    · exact hline w hw
    · exact line_of_isToken (rawTokens_isToken w (phraseWordSet_subset hw))
  rw [← h.mainSize] at hmain
  rw [← h.phraseSize] at hphrase
  obtain ⟨hwords, -⟩ := loadDictionaries_written u hmain hphrase
    (fun w hw => (hlines w hw).1) (fun w hw => (hlines w hw).2)
  have hload : (loadDictionaries u (run.engDict.getD [])).1 = run.object.mainDecode := by
    rw [h.engDict, Option.getD_some, hwords]
  exact ⟨hload, congrArg (fun l : List Word => codeWidth l.length) hload⟩

/-- The tokens that the reader finds first, when the widths of the main codes are the same. -/
lemma Succeeded.parseItems_words (u : Uninit) (hline : ∀ w ∈ main, w ≠ [] ∧ (10 : UInt8) ∉ w)
    (hmain : knownWords main (tokenizeRaw text) < 2 ^ 32)
    (hphrase : phraseCount (tokenizeRaw text) < 2 ^ 32)
    (hwidth : codeWidth main.length = codeWidth (knownWords main (tokenizeRaw text)))
    (hfew : run.object.localDecode.length < 65536)
    (hshort : ∀ w ∈ run.object.localDecode, w.length < 256) {words : List Word} {rest : List Token}
    (htokens : processWithPhrases run.object.phraseTrieRoot (tokenizeRaw text) =
      words.map .word ++ rest) (hwords : ∀ w ∈ words, w ∈ run.object.mainEncode) :
    let start := loopStart u (run.engDict.getD []) (run.compressed.getD [])
    ∃ padding, parseItems start.1 words.length start.2.rest = (words.map fun w => [w],
      some (rest.flatMap (tokenBits (encodeTables run.object)) ++ List.replicate padding false)) := by
  intro start
  obtain ⟨bw, hwrite, hcompressed⟩ := h.compressed
  obtain ⟨hheader, hheaderBits⟩ := writeLocalDictionary_bits BitWriter.ok_empty
    run.object.localDecode
  obtain ⟨hok, hbits⟩ := writeTokens_tokenBits hheader hwrite
  obtain ⟨hdecode, hdecodeWidth⟩ := h.reader_mainDecode u hline hmain hphrase (run.compressed.getD [])
  rw [hheaderBits, BitWriter.bits_empty, List.nil_append, htokens, List.flatMap_append,
    List.flatMap_map] at hbits
  refine ⟨(8 - bw.bits.length % 8) % 8, ?_⟩
  have hrest : start.2.rest = words.flatMap (wordBits (encodeTables run.object)) ++
      (rest.flatMap (tokenBits (encodeTables run.object)) ++
        List.replicate ((8 - bw.bits.length % 8) % 8) false) := by
    have hreader : start.2 = (readLocalDictionary ⟨run.compressed.getD [], 0, 0⟩).2 := rfl
    rw [hreader]
    refine readLocalDictionary_rest ?_ hfew hshort
    rw [hcompressed, Option.getD_some, BitWriter.bytesBits_flush hok, hbits]
    simp only [List.append_assoc]
    rfl
  rw [hrest]
  have hsame : (encodeTables run.object).mainWidth = start.1.mainWidth := by
    rw [hdecodeWidth, h.mainSize, ← hwidth]
    exact h.mainWidth
  refine parseItems_mainWords hsame (fun w code hcode => ?_) ?_ hwords _
  · rw [hdecode]
    exact h.coherent.codes (h.mainSize.trans_le hmain.le) w code hcode
  · rw [hdecode, hdecodeWidth]
    exact le_two_pow_codeWidth _

end Restored

lemma compress_dictionary {ch : Choices} {files : CompressFiles}
    (hsuccess : (compress ch files {}).status = .success) :
    loadDictionaryWords files.dictionary ≠ [] := by
  intro hnil
  obtain ⟨text, -, hinput, -⟩ := compress_success hsuccess
  rw [compress_some hinput, if_pos hnil] at hsuccess
  cases hsuccess

lemma itemText_singleton (w : Word) : itemText [w] = w ++ [32] := by
  simp [itemText, joinWords]

lemma flatMap_itemText_words (words : List Word) :
    (words.map fun w => [w]).flatMap itemText = words.flatMap fun w => w ++ [32] := by
  simp only [List.flatMap_map, itemText_singleton]

/-- How far a text comes back: `decompress` restores the tokens before the first phrase and before
the first local word, provided that the phrase passes did not make the main codes longer and the
local dictionary fits its header. If there is neither a phrase nor a local word it restores the whole
text and then goes on writing the first word of the main dictionary. -/
theorem decompress_restores (ch : Choices) (u : Uninit) (files : CompressFiles)
    (hsuccess : (compress ch files {}).status = .success)
    (hmain : knownWords (loadDictionaryWords files.dictionary) files.rawTokens < 2 ^ 32)
    (hphrase : phraseCount files.rawTokens < 2 ^ 32)
    (hwidth : codeWidth (loadDictionaryWords files.dictionary).length =
      codeWidth (knownWords (loadDictionaryWords files.dictionary) files.rawTokens))
    (hfew : (compress ch files {}).object.localDecode.length < 65536)
    (hshort : ∀ w ∈ (compress ch files {}).object.localDecode, w.length < 256)
    (words : List Word) (rest : List Token)
    (htokens : processWithPhrases (compress ch files {}).object.phraseTrieRoot files.rawTokens =
      words.map .word ++ rest)
    (hwords : ∀ w ∈ words, w ∈ (compress ch files {}).object.mainEncode) :
    let run := compress ch files {}
    let start := loopStart u (run.engDict.getD []) (run.compressed.getD [])
    let s := fun n => (loopPass start.1)^[n] (.running start.2 [])
    words <+: files.rawTokens ∧
      (∃ r, s words.length = .running r (words.flatMap fun w => w ++ [32])) ∧
      (rest = [] → words = files.rawTokens ∧ ∀ k, ∃ r, s (words.length + k) =
        .running r ((words.flatMap fun w => w ++ [32]) ++
          (List.replicate k (run.object.mainDecode.getD 0 [] ++ [32])).flatten)) := by
  intro run start s
  obtain ⟨text, main, hinput, hperm, h⟩ := compress_success hsuccess
  have hraw : files.rawTokens = tokenizeRaw text := by rw [CompressFiles.rawTokens, hinput]; rfl
  rw [hraw, ← knownWords_perm hperm] at hmain hwidth
  rw [← hperm.length_eq] at hwidth
  rw [hraw] at hphrase htokens ⊢
  have hline : ∀ w ∈ main, w ≠ [] ∧ (10 : UInt8) ∉ w := fun w hw =>
    loadDictionaryWords_line (hperm.mem_iff.mp hw)
  obtain ⟨padding, hparse⟩ := h.parseItems_words u hline hmain hphrase hwidth hfew hshort htokens
    hwords
  have hok : start.2.Ok := loopStart_ok u (run.engDict.getD []) (run.compressed.getD [])
  obtain ⟨hfront, hwhole⟩ := words_processLoop htokens
  refine ⟨hfront, ?_, fun hnil => ⟨hwhole hnil le_rfl, fun k => ?_⟩⟩
  · have hrefines := iterate_refines (d := start.1) words.length hok []
    simp only [Refines, start, run, hparse] at hrefines
    obtain ⟨r, hs, -, -⟩ := hrefines
    exact ⟨r, by simpa only [flatMap_itemText_words, List.nil_append] using hs⟩
  · have hmainDecode : run.object.mainDecode ≠ [] := by
      obtain ⟨w, hw⟩ := List.exists_mem_of_ne_nil _ (compress_dictionary hsuccess)
      exact List.ne_nil_of_mem ((h.mem_mainDecode w).mpr (Or.inl (hperm.mem_iff.mpr hw)))
    obtain ⟨first, others, hfirst⟩ := List.exists_cons_of_ne_nil hmainDecode
    have hdecode := (h.reader_mainDecode u hline hmain hphrase (run.compressed.getD [])).1
    have hzero : start.1.mainDecode[0]? = some first := by rw [hdecode, hfirst]; rfl
    rw [hnil] at hparse
    obtain ⟨m, hzeros⟩ := parseItems_zeros hzero k padding
    have hall := parseItems_append (k := k) hparse
    rw [List.flatMap_nil, List.nil_append, hzeros] at hall
    have hrefines := iterate_refines (d := start.1) (words.length + k) hok []
    simp only [Refines, start, run, hall] at hrefines
    obtain ⟨r, hs, -, -⟩ := hrefines
    refine ⟨r, hs.trans ?_⟩
    rw [List.nil_append, List.flatMap_append, flatMap_itemText_words, hfirst]
    congr 2
    rw [List.flatMap_def, List.map_replicate, itemText_singleton]
    rfl

/-! ### A text without phrases -/

lemma processLoop_noEnds {root : PhraseNode} (h : ∀ p, ¬ EndsAt root p) {fuel : ℕ}
    {tokens : List Word} (hfuel : tokens.length ≤ fuel) :
    processLoop root fuel tokens = tokens.map .word := by
  induction fuel generalizing tokens with
  | zero => rw [List.eq_nil_of_length_eq_zero (Nat.le_zero.mp hfuel)]; rfl
  | succ fuel ih =>
    cases tokens with
    | nil => rfl
    | cons token rest =>
      rcases matchPhrase_spec root (token :: rest) with ⟨n, hn, -⟩ | ⟨-, hmatch⟩
      · exact absurd hn.ends (h _)
      · rw [processLoop, hmatch, ih (by simpa using hfuel), List.map_cons]

lemma not_endsAt_of_phraseCount {text : List UInt8} (hnone : phraseCount (tokenizeRaw text) = 0)
    (o : Orders) {main : MainDict} (h : main.Coherent) (p : List Word) :
    ¬ EndsAt (minePhrases o (tokenizeRaw text) main).phraseTrieRoot p := by
  obtain ⟨hselected, hregistered⟩ := PhraseFree.phraseCount_eq_zero_iff.mp hnone
  rw [endsAt_minePhrases rawTokens_isToken h o]
  rintro (⟨occ, hocc, hsel, -⟩ | hp)
  · have hmem := mem_selectedOccurrences.mpr ⟨hocc, hsel⟩
    rw [hselected] at hmem
    cases hmem
  · have hmem := mem_registeredNgrams.mpr hp
    rw [hregistered] at hmem
    cases hmem

lemma Succeeded.processWithPhrases_noPhrases {ch : Choices} {text : List UInt8} {main : List Word}
    {run : CompressRun} (h : Succeeded ch text main run) (hnone : phraseCount (tokenizeRaw text) = 0) :
    processWithPhrases run.object.phraseTrieRoot (tokenizeRaw text) = (tokenizeRaw text).map .word := by
  rw [h.phraseTrieRoot]
  exact processLoop_noEnds (not_endsAt_of_phraseCount hnone ch.orders (buildEncode_coherent main)) le_rfl

lemma Succeeded.mem_mainEncode {ch : Choices} {text : List UInt8} {main : List Word}
    {run : CompressRun} (h : Succeeded ch text main run) {w : Word} (hw : w ∈ main) :
    w ∈ run.object.mainEncode :=
  (h.coherent.keys w).mpr ((h.mem_mainDecode w).mpr (Or.inl hw))

/-- A text without phrases is compressed word by word. -/
lemma compress_noPhrases (ch : Choices) {files : CompressFiles} {text : List UInt8}
    (hinput : files.input = some text) (hwords : loadDictionaryWords files.dictionary ≠ [])
    (hnone : phraseCount (tokenizeRaw text) = 0)
    (hlisted : (loadDictionaryWords files.dictionary).length < 2 ^ 32)
    (hrare : (tokenizeRaw text).length < 2 ^ 32) (hdict : files.engDictWritable = true)
    (hout : files.outputWritable = true) : (compress ch files {}).status = .success := by
  have hemitted : emitted ch files text {} = (tokenizeRaw text).map .word :=
    processLoop_noEnds (not_endsAt_of_phraseCount hnone ch.orders (buildEncode_coherent _)) le_rfl
  have hphrases : (learned ch files text {}).phraseDecode = [] := by
    rw [← List.length_eq_zero_iff, ← hnone]
    exact (minePhrases_sizes rawTokens_isToken ch.orders (buildEncode_coherent _)).1
  have hstats : (printPhraseStats ch.sortPhrases (learned ch files text {})).isSome := by
    rw [printPhraseStats_isSome_iff, hphrases]
    intro x _ e he
    simp at he
  have hlocal : (writing ch files text {}).localDecode.length < 2 ^ 32 := by
    rw [writing_localSize]
    exact ((Finset.card_le_card Finset.sdiff_subset).trans (List.toFinset_card_le _)).trans_lt hrare
  have hword : ∀ w, .word w ∈ emitted ch files text {} →
      InDictionaries (encodeTables (writing ch files text {})) w :=
    fun w hw => token_inDictionaries ch files {} ((processLoop_tokens hw).1 w rfl)
  have hwild : ∀ w phraseId, .wildcard w phraseId ∈ emitted ch files text {} →
      InDictionaries (encodeTables (writing ch files text {})) w :=
    fun w phraseId hw => by simp [hemitted] at hw
  obtain ⟨bw, hwrite⟩ := writeTokens_ok hword hwild
    (writeLocalDictionary (writing ch files text {}).localDecode {})
  have hends := (compress_endsWell_iff hinput hwords {} ⟨bw, hwrite⟩).mpr
    ⟨by rwa [(wordsFor_perm ch files text).length_eq], hstats, hlocal⟩
  refine hends.resolve_right ?_
  rintro ⟨e, -, he⟩
  cases e with
  | inputFile => simp [CompressError.Expected, hinput] at he
  | dictionaryWords => exact hwords he
  | engDict => simp [CompressError.Expected, hdict] at he
  | write e => exact he
  | outputFile => simp [CompressError.Expected, hout] at he

/-- A text of 254 different words, all of them in the word list. -/
def differentFiles : CompressFiles where
  dictionary := some (PhraseFree.differentWords.flatMap fun w => w ++ [10])
  input := some PhraseFree.differentText

/-- The 254 words come back, and behind them the first word of the dictionary again and again. -/
theorem decompress_restores_different :
    let run := compress stableChoices differentFiles {}
    let start := loopStart zeroUninit (run.engDict.getD []) (run.compressed.getD [])
    ∀ k, ∃ r, (loopPass start.1)^[PhraseFree.differentWords.length + k] (.running start.2 []) =
      .running r ((PhraseFree.differentWords.flatMap fun w => w ++ [32]) ++
        (List.replicate k (run.object.mainDecode.getD 0 [] ++ [32])).flatten) := by
  have hlist : loadDictionaryWords differentFiles.dictionary = PhraseFree.differentWords := by
    decide +kernel
  have hlen : PhraseFree.differentWords.length = 254 := by simp [PhraseFree.differentWords]
  have htokens := PhraseFree.tokenizeRaw_differentText
  have hraw : differentFiles.rawTokens = PhraseFree.differentWords := htokens
  have hnone : phraseCount PhraseFree.differentWords = 0 :=
    (PhraseFree.phraseCount_eq_zero_iff_nodup (by omega)).mpr (Or.inr PhraseFree.many_differentWords)
  have hset : phraseWordSet PhraseFree.differentWords = ∅ := by
    obtain ⟨hselected, hregistered⟩ := PhraseFree.phraseCount_eq_zero_iff.mp hnone
    simp [phraseWordSet, hselected, hregistered]
  have hknown : knownWords PhraseFree.differentWords PhraseFree.differentWords = 254 := by
    rw [knownWords, hset, hlen, Finset.empty_sdiff, Finset.card_empty]
  have hsuccess : (compress stableChoices differentFiles {}).status = .success := by
    refine compress_noPhrases stableChoices rfl ?_ ?_ ?_ ?_ rfl rfl
    · rw [hlist]
      decide
    · rw [htokens, hnone]
    · rw [hlist, hlen]
      decide
    · rw [htokens, hlen]
      decide
  obtain ⟨text, main, hinput, hperm, h⟩ := compress_success hsuccess
  cases hinput
  rw [hlist] at hperm
  have hlocal : (compress stableChoices differentFiles {}).object.localDecode = [] := by
    rw [← List.length_eq_zero_iff, h.localSize, htokens, List.toFinset_eq_of_perm _ _ hperm,
      Finset.card_eq_zero, Finset.sdiff_eq_empty_iff_subset]
    exact Finset.subset_union_left
  have hemitted : processWithPhrases (compress stableChoices differentFiles {}).object.phraseTrieRoot
      differentFiles.rawTokens = PhraseFree.differentWords.map .word ++ [] := by
    have hwhole := h.processWithPhrases_noPhrases (by rw [htokens, hnone])
    rw [htokens] at hwhole
    rw [hraw, hwhole, List.append_nil]
  exact ((decompress_restores stableChoices zeroUninit differentFiles hsuccess
    (by rw [hlist, hraw, hknown]; decide) (by rw [hraw, hnone]; decide)
    (by rw [hlist, hraw, hknown, hlen]) (by rw [hlocal]; decide) (by rw [hlocal]; simp)
    PhraseFree.differentWords [] hemitted fun w hw =>
      h.mem_mainEncode (hperm.mem_iff.mpr hw)).2.2 rfl).2

end HashCompress.Compressor
