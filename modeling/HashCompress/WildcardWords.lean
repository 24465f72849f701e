import HashCompress.CallSequences
import HashCompress.ShownPhrases

/-!
# The words that the compressor looks up

Every token of the text is in one of the two dictionaries, so a look-up fails only for a wildcard
word that is no token: the slot of the matched node can lie behind the end of the text, and then the
wildcard token carries what an earlier node of the match has left, or nothing.
-/
namespace HashCompress.Compressor

open WordText TallyMap KeyTrie BitIO CodeTables TokenCodec DictionaryFile PhraseMining PhraseSegment
open Tokenizer

/-! ### The wildcard word of a match -/

/-- Every match at a node with a wildcard carries the token at the slot of the node, counted from the
beginning of the match. -/
def SlotsFilled (root : PhraseNode) : ℕ → List Word → Prop
  | 0, _ => True
  | _ + 1, [] => True
  | fuel + 1, token :: rest =>
    match (matchPhrase root (token :: rest)).lastMatch with
    | some (info, matchLength) =>
      (info.hasWildcard = true →
        (token :: rest)[info.wildcardPos]? = some (matchPhrase root (token :: rest)).wildcardWord) ∧
        SlotsFilled root fuel ((token :: rest).drop matchLength)
    | none => SlotsFilled root fuel rest

/-- The greedy segmentation of the tokens, in which every phrase taken is `ok` where it stands. -/
inductive SegmentedAt (isEnd : List Word → Prop) (ok : List Word → ℕ → Prop) : List Word → Prop where
  | nil : SegmentedAt isEnd ok []
  | word {token : Word} {rest : List Word} (hno : NoMatch isEnd 5 (token :: rest))
      (h : SegmentedAt isEnd ok rest) : SegmentedAt isEnd ok (token :: rest)
  | phrase {tokens : List Word} {n : ℕ} (hn : Longest isEnd 5 tokens n) (hok : ok tokens n)
      (h : SegmentedAt isEnd ok (tokens.drop n)) : SegmentedAt isEnd ok tokens

section Segmented

variable {isEnd : List Word → Prop} {ok : List Word → ℕ → Prop}

lemma segmentedAt_word_iff {token : Word} {rest : List Word} (hno : NoMatch isEnd 5 (token :: rest)) :
    SegmentedAt isEnd ok (token :: rest) ↔ SegmentedAt isEnd ok rest := by
  refine ⟨fun h => ?_, fun h => .word hno h⟩
  cases h with
  | word _ h => exact h
  | phrase hn _ _ => exact absurd hn hno.not_longest

lemma segmentedAt_phrase_iff {tokens : List Word} {n : ℕ} (hn : Longest isEnd 5 tokens n) :
    SegmentedAt isEnd ok tokens ↔ ok tokens n ∧ SegmentedAt isEnd ok (tokens.drop n) := by
  refine ⟨fun h => ?_, fun h => .phrase hn h.1 h.2⟩
  cases h with
  | nil =>
    have hle := hn.le_length
    have hpos := hn.pos
    simp at hle
    omega
  | word hno _ => exact absurd hn hno.not_longest
  | phrase hk hok h =>
    obtain rfl := hn.unique hk
    exact ⟨hok, h⟩

end Segmented

/-- If the slot of the last match is a token, `wildcard_word` is that token. -/
def SlotRead (start : List Word) (m : MatchState) : Prop :=
  ∀ info n, m.lastMatch = some (info, n) → info.hasWildcard = true →
    ∀ w, start[info.wildcardPos]? = some w → m.wildcardWord = w

lemma slotRead_matchLoop (start : List Word) {fuel j : ℕ} {current : PhraseNode} {rest : List Word}
    {m : MatchState} (hm : SlotRead start m) :
    SlotRead start (matchLoop start fuel j current rest m) := by
  induction fuel generalizing j current rest m with
  | zero => exact hm
  | succ fuel ih =>
    cases rest with
    | nil => exact hm
    | cons token rest =>
      unfold matchLoop
      cases current.child? token with
      | none => exact hm
      | some node =>
        refine ih ?_
        by_cases hend : node.info.isEnd = true
        · rw [if_pos hend]
          intro info n hlast hwild w hw
          simp only [Option.some.injEq, Prod.mk.injEq] at hlast
          obtain ⟨rfl, -⟩ := hlast
          simp only [hwild, if_true]
          rw [List.getD_eq_getElem?_getD, hw, Option.getD_some]
        · rw [if_neg hend]
          exact hm

lemma slotRead_matchPhrase (root : PhraseNode) (tokens : List Word) :
    SlotRead tokens (matchPhrase root tokens) :=
  slotRead_matchLoop tokens fun info n hlast => by cases hlast

/-- The slots are filled exactly if none lies behind the end of the text. -/
lemma slotsFilled_iff (root : PhraseNode) {fuel : ℕ} {tokens : List Word}
    (hfuel : tokens.length ≤ fuel) :
    SlotsFilled root fuel tokens ↔ SegmentedAt (EndsAt root)
      (fun start n => (root.infoAt {} (start.take n)).hasWildcard = true →
        (root.infoAt {} (start.take n)).wildcardPos < start.length) tokens := by
  induction fuel generalizing tokens with
  | zero =>
    obtain rfl : tokens = [] := List.eq_nil_of_length_eq_zero (by omega)
    exact ⟨fun _ => .nil, fun _ => trivial⟩
  | succ fuel ih =>
    cases tokens with
    | nil => exact ⟨fun _ => .nil, fun _ => trivial⟩
    | cons token rest =>
      unfold SlotsFilled
      rcases matchPhrase_spec root (token :: rest) with ⟨n, hn, hmatch⟩ | ⟨hno, hmatch⟩
      · have hrest := hn.length_rest hfuel
        rw [hmatch, segmentedAt_phrase_iff hn, ← ih hrest]
        refine and_congr_left fun _ => forall_congr' fun hwild => ?_
        constructor
        · intro hslot
          exact (List.getElem?_eq_some_iff.mp hslot).1
        · intro hlt
          have hslot := List.getElem?_eq_getElem hlt
          rw [hslot, slotRead_matchPhrase root (token :: rest) _ n hmatch hwild _ hslot]
      · rw [hmatch, segmentedAt_word_iff hno, ← ih (by simpa using hfuel)]

/-- Where every slot is filled, the wildcard words are tokens of the text. -/
lemma wildcard_mem_processLoop {root : PhraseNode} {fuel : ℕ} {tokens : List Word}
    (h : SlotsFilled root fuel tokens) {w : Word} {phraseId : UInt32}
    (hw : Token.wildcard w phraseId ∈ processLoop root fuel tokens) : w ∈ tokens := by
  induction fuel generalizing tokens with
  | zero => simp [processLoop] at hw
  | succ fuel ih =>
    cases tokens with
    | nil => simp [processLoop] at hw
    | cons token rest =>
      unfold processLoop at hw
      unfold SlotsFilled at h
      rcases matchPhrase_spec root (token :: rest) with ⟨n, hn, hmatch⟩ | ⟨-, hmatch⟩
      · rw [hmatch] at h hw
        rcases List.mem_append.mp hw with hw | hw
        · unfold matchTokens at hw
          split at hw
          · rename_i hwild
            have hslot := h.1 hwild
            simp only [List.mem_cons, List.not_mem_nil, reduceCtorEq, false_or, or_false,
              Token.wildcard.injEq] at hw
            rw [hw.1]
            exact List.mem_of_getElem? hslot
          · simp at hw
        · exact List.mem_of_mem_drop (ih h.2 hw)
      · rw [hmatch] at h hw
        rcases List.mem_cons.mp hw with hw | hw
        · cases hw
        · exact List.mem_cons_of_mem _ (ih h hw)

/-! ### The dictionaries of a run -/

/-- The object after the phrase passes, the tokens that are emitted for the text, and the object
with which they are written. -/
def learned (ch : Choices) (files : CompressFiles) (text : List UInt8) (c : TwoTierTextCompressor) :
    TwoTierTextCompressor :=
  learn ch (tokenizeRaw text) (wordsFor ch files text) (resetFor (tokenizeRaw text) c)

def emitted (ch : Choices) (files : CompressFiles) (text : List UInt8) (c : TwoTierTextCompressor) :
    List Token :=
  processWithPhrases (learned ch files text c).phraseTrieRoot (tokenizeRaw text)

def writing (ch : Choices) (files : CompressFiles) (text : List UInt8) (c : TwoTierTextCompressor) :
    TwoTierTextCompressor :=
  buildLocalDictionary (rareWords (learned ch files text c).mainEncode (emitted ch files text c))
    (learned ch files text c)

def InDictionaries (e : EncodeTables) (w : Word) : Prop :=
  (e.mainEncode.lookup w).isSome ∨ (e.localEncode.lookup w).isSome

/-- A failure for which a file or the empty word list is to blame. -/
def CompressError.Expected (files : CompressFiles) : CompressError → Prop
  | .inputFile => files.input = none
  | .dictionaryWords => loadDictionaryWords files.dictionary = []
  | .engDict => files.engDictWritable = false
  | .write _ => False
  | .outputFile => files.outputWritable = false

def CompressRun.EndsWell (files : CompressFiles) (run : CompressRun) : Prop :=
  run.status = .success ∨ ∃ e, run.status = .failed e ∧ e.Expected files

/-- The words of all tokens are found, wildcard tokens carry the token at their slot, and `compress`
returns true or fails for a file or the empty word list. -/
structure WordsFound (ch : Choices) (files : CompressFiles) (text : List UInt8)
    (c : TwoTierTextCompressor) : Prop where
  words : ∀ w, .word w ∈ emitted ch files text c →
    InDictionaries (encodeTables (writing ch files text c)) w
  wildcards : ∀ w phraseId, .wildcard w phraseId ∈ emitted ch files text c →
    InDictionaries (encodeTables (writing ch files text c)) w
  slots : SlotsFilled (learned ch files text c).phraseTrieRoot (tokenizeRaw text).length
    (tokenizeRaw text)
  compress : (compress ch files c).EndsWell files

/-- Wherever the greedy segmentation of the text takes a frequent pattern, the slot of the one that
was added last on its path lies within the text. -/
def SlotsAhead (o : Orders) (tokens : List Word) : Prop :=
  SegmentedAt (fun p => Starred tokens p ∨ Registered tokens p)
    (fun start n => ∀ m, lastMark (start.take n) (wildcardMarks o tokens) = some m →
      ∀ pos, m.slot = some pos → pos < start.length) tokens

lemma slotsFilled_minePhrases {tokens : List Word} (htok : ∀ w ∈ tokens, IsToken w)
    {main : MainDict} (h : main.Coherent) (o : Orders) :
    SlotsFilled (minePhrases o tokens main).phraseTrieRoot tokens.length tokens ↔
      SlotsAhead o tokens := by
  rw [slotsFilled_iff _ le_rfl, SlotsAhead]
  have hends : EndsAt (minePhrases o tokens main).phraseTrieRoot =
      fun p => Starred tokens p ∨ Registered tokens p :=
    funext fun p => propext (endsAt_minePhrases htok h o p)
  have hslots : (fun (start : List Word) (n : ℕ) =>
      ((minePhrases o tokens main).phraseTrieRoot.infoAt {} (start.take n)).hasWildcard = true →
        ((minePhrases o tokens main).phraseTrieRoot.infoAt {} (start.take n)).wildcardPos <
          start.length) =
      fun start n => ∀ m, lastMark (start.take n) (wildcardMarks o tokens) = some m →
        ∀ pos, m.slot = some pos → pos < start.length := by
    funext start n
    refine propext ⟨fun hahead m hlast pos hpos => ?_, fun hahead hwild => ?_⟩
    · have hstar : Starred tokens (start.take n) := (exists_wildcardMark htok o).mp
        (lastWith_isSome.mp (Option.isSome_iff_exists.mpr ⟨m, hlast⟩))
      have hlt := hahead ((hasWildcard_minePhrases htok h o _).mpr hstar)
      have hslot := wildcardPos_minePhrases htok o h hlast
      rw [hpos, Option.some.injEq] at hslot
      rwa [hslot]
    · have hstar := (hasWildcard_minePhrases htok h o _).mp hwild
      obtain ⟨m, hlast⟩ := Option.isSome_iff_exists.mp
        (lastWith_isSome.mpr ((exists_wildcardMark htok o).mpr hstar))
      exact hahead m hlast _ (wildcardPos_minePhrases htok o h hlast)
  rw [hends, hslots]

/-- Every token of the text is in one of the dictionaries: if it is on no path of the trie it is
emitted as a word, and then collected as a rare one. -/
lemma token_inDictionaries (ch : Choices) (files : CompressFiles) {text : List UInt8}
    (c : TwoTierTextCompressor) {w : Word} (hw : w ∈ tokenizeRaw text) :
    InDictionaries (encodeTables (writing ch files text c)) w := by
  have htok : ∀ w ∈ tokenizeRaw text, IsToken w := fun w hw => tokenizeRaw_isToken hw
  have hmain := buildEncode_coherent (wordsFor ch files text)
  have hcoherent := (mined_minePhrases htok hmain ch.orders).coherent
  by_cases hknown : w ∈ (learned ch files text c).mainEncode
  · exact Or.inl (AList.lookup_isSome.mpr hknown)
  · have hnew : w ∉ (learned ch files text c).mainDecode := fun hmem => hknown ((hcoherent.keys w).mpr hmem)
    have hemitted : Token.word w ∈ emitted ch files text c :=
      word_mem_processLoop (fun p hp => path_known htok ch.orders hmain hp) le_rfl hw hnew
    have hrare : w ∈ rareWords (learned ch files text c).mainEncode (emitted ch files text c) :=
      List.mem_filterMap.mpr ⟨_, hemitted, by simp [hknown]⟩
    have hlocal : w ∈ (writing ch files text c).localDecode := mem_appendNew.mpr (Or.inr hrare)
    exact Or.inr (AList.lookup_isSome.mpr (((buildEncode_coherent _).keys w).mpr hlocal))

/-! ### Writing the tokens -/

lemma writeWord_ok {e : EncodeTables} (missing : Word → WriteError) {w : Word}
    (h : InDictionaries e w) (bw : BitWriter) : ∃ bw', writeWord e missing w bw = .ok bw' := by
  unfold writeWord
  cases hmain : e.mainEncode.lookup w with
  | some code => exact ⟨_, rfl⟩
  | none =>
    rw [InDictionaries, hmain] at h
    obtain ⟨code, hcode⟩ := Option.isSome_iff_exists.mp (h.resolve_left (by simp))
    rw [hcode]
    exact ⟨_, rfl⟩

lemma writeTokens_ok {e : EncodeTables} {tokens : List Token}
    (hword : ∀ w, .word w ∈ tokens → InDictionaries e w)
    (hwild : ∀ w phraseId, .wildcard w phraseId ∈ tokens → InDictionaries e w) (bw : BitWriter) :
    ∃ bw', writeTokens e bw tokens = .ok bw' := by
  induction tokens generalizing bw with
  | nil => exact ⟨bw, rfl⟩
  | cons token tokens ih =>
    have hfirst : ∃ next, writeToken e bw token = .ok next := by
      cases token with
      | word w => exact writeWord_ok .word (hword w List.mem_cons_self) bw
      | phrase phraseId => exact ⟨_, rfl⟩
      | wildcard w phraseId =>
        exact writeWord_ok .wildcard (hwild w phraseId List.mem_cons_self) (bw.writeBits 3 2)
    obtain ⟨next, hnext⟩ := hfirst
    obtain ⟨bw', hrest⟩ := ih (fun w hw => hword w (List.mem_cons_of_mem _ hw))
      (fun w phraseId hw => hwild w phraseId (List.mem_cons_of_mem _ hw)) next
    refine ⟨bw', ?_⟩
    rw [writeTokens, List.foldlM_cons, hnext]
    exact hrest

lemma writeFiles_endsWell {files : CompressFiles} {tokens : List Token} {c : TwoTierTextCompressor}
    {bw : BitWriter}
    (hwrite : writeTokens (encodeTables c) (writeLocalDictionary c.localDecode {}) tokens = .ok bw) :
    (writeFiles files tokens c).EndsWell files := by
  unfold writeFiles CompressRun.EndsWell
  simp only [hwrite]
  cases hdict : files.engDictWritable <;> cases hout : files.outputWritable <;>
    simp [CompressError.Expected, hdict, hout]

/-- When no look-up fails, what is left are the two loops whose counters do not reach 2^32 and the
index out of range in the statistics. -/
lemma compress_endsWell_iff {ch : Choices} {files : CompressFiles} {text : List UInt8}
    (hinput : files.input = some text) (hwords : loadDictionaryWords files.dictionary ≠ [])
    (c : TwoTierTextCompressor)
    (hwrite : ∃ bw, writeTokens (encodeTables (writing ch files text c))
      (writeLocalDictionary (writing ch files text c).localDecode {}) (emitted ch files text c) =
        .ok bw) :
    (compress ch files c).EndsWell files ↔ (wordsFor ch files text).length < 2 ^ 32 ∧
      (printPhraseStats ch.sortPhrases (learned ch files text c)).isSome ∧
        (writing ch files text c).localDecode.length < 2 ^ 32 := by
  have hdiverges : ∀ c, ¬ CompressRun.EndsWell files ⟨.diverges, c, none, none⟩ := by
    simp [CompressRun.EndsWell]
  have hundefined : ∀ c, ¬ CompressRun.EndsWell files ⟨.undefinedIndex, c, none, none⟩ := by
    simp [CompressRun.EndsWell]
  rw [compress_some hinput, if_neg hwords]
  by_cases hmain : 2 ^ 32 ≤ (wordsFor ch files text).length
  · rw [if_pos hmain]
    exact iff_of_false (hdiverges _) fun h => absurd h.1 (not_lt.mpr hmain)
  rw [if_neg hmain]
  change (finish ch files (tokenizeRaw text) (learned ch files text c)).EndsWell files ↔ _
  by_cases hstats : (printPhraseStats ch.sortPhrases (learned ch files text c)).isSome
  · by_cases hlocal : (writing ch files text c).localDecode.length < 2 ^ 32
    · obtain ⟨bw, hwrite⟩ := hwrite
      rw [finish_eq_writeFiles hstats hlocal]
      exact iff_of_true (writeFiles_endsWell hwrite) ⟨not_le.mp hmain, hstats, hlocal⟩
    · refine iff_of_false ?_ fun h => hlocal h.2.2
      obtain ⟨stats, hsome⟩ := Option.isSome_iff_exists.mp hstats
      unfold finish
      rw [hsome]
      dsimp only
      split_ifs with hle
      · exact hdiverges _
      · exact absurd (not_lt.mp hlocal) hle
  · refine iff_of_false ?_ fun h => hstats h.2.1
    unfold finish
    rw [Option.not_isSome_iff_eq_none.mp hstats]
    exact hundefined _

/-! ### What a run needs -/

/-- No slot of a phrase that is taken lies behind the end of the text, the phrases that are shown have
no asterisk but their slot, and the word list and the rare words are fewer than 2^32. -/
structure RunsThrough (ch : Choices) (files : CompressFiles) (text : List UInt8) : Prop where
  slots : SlotsAhead ch.orders (tokenizeRaw text)
  shown : 2 ^ 32 ≤ knownWords (loadDictionaryWords files.dictionary) (tokenizeRaw text) ∨
    ∀ m ∈ shownMarks ch.sortPhrases ch.orders (tokenizeRaw text), Printable m
  listed : (loadDictionaryWords files.dictionary).length < 2 ^ 32
  rare : ((tokenizeRaw text).toFinset \ ((loadDictionaryWords files.dictionary).toFinset ∪
    phraseWordSet (tokenizeRaw text))).card < 2 ^ 32

section Conditions

variable (ch : Choices) (files : CompressFiles) (text : List UInt8) (c : TwoTierTextCompressor)

lemma wordsFor_perm : (wordsFor ch files text).Perm (loadDictionaryWords files.dictionary) :=
  mainWords_perm ch.sortWords (tally (tokenizeRaw text)) (loadDictionaryWords files.dictionary)

lemma learned_stats_iff : (printPhraseStats ch.sortPhrases (learned ch files text c)).isSome ↔
    2 ^ 32 ≤ knownWords (loadDictionaryWords files.dictionary) (tokenizeRaw text) ∨
      ∀ m ∈ shownMarks ch.sortPhrases ch.orders (tokenizeRaw text), Printable m := by
  have htok : ∀ w ∈ tokenizeRaw text, IsToken w := rawTokens_isToken
  have hsize := (minePhrases_sizes htok ch.orders (buildEncode_coherent (wordsFor ch files text))).2.1
  rw [← knownWords_perm (wordsFor_perm ch files text), knownWords, ← hsize]
  exact printPhraseStats_isSome_iff_shown ch.sortPhrases ch.orders (tokenizeRaw text)
    (codesInRange_buildEncode (wordsFor ch files text)) rfl rfl

lemma writing_localSize : (writing ch files text c).localDecode.length =
    ((tokenizeRaw text).toFinset \ ((loadDictionaryWords files.dictionary).toFinset ∪
      phraseWordSet (tokenizeRaw text))).card := by
  rw [← List.toFinset_eq_of_perm _ _ (wordsFor_perm ch files text)]
  exact rareWords_minePhrases_length (buildEncode_coherent (wordsFor ch files text)) ch.orders

end Conditions

/-- For every non-empty word list, every text, order of traversal and prior state of the object: the
words of all tokens are found, every wildcard token carries its own word, and `compress` fails only
for a file, exactly under these conditions. -/
theorem wordsFound_iff (ch : Choices) (files : CompressFiles) (text : List UInt8)
    (c : TwoTierTextCompressor) (hinput : files.input = some text)
    (hwords : loadDictionaryWords files.dictionary ≠ []) :
    WordsFound ch files text c ↔ RunsThrough ch files text := by
  have hslots : SlotsFilled (learned ch files text c).phraseTrieRoot (tokenizeRaw text).length
      (tokenizeRaw text) ↔ SlotsAhead ch.orders (tokenizeRaw text) :=
    slotsFilled_minePhrases rawTokens_isToken (buildEncode_coherent (wordsFor ch files text)) ch.orders
  have hemitted : ∀ w, .word w ∈ emitted ch files text c →
      InDictionaries (encodeTables (writing ch files text c)) w :=
    fun w hw => token_inDictionaries ch files c ((processLoop_tokens hw).1 w rfl)
  have hends := fun hwild => compress_endsWell_iff hinput hwords c
    (writeTokens_ok hemitted hwild (writeLocalDictionary (writing ch files text c).localDecode {}))
  rw [learned_stats_iff, writing_localSize, (wordsFor_perm ch files text).length_eq] at hends
  constructor
  · rintro ⟨-, hwild, hfilled, hrun⟩
    obtain ⟨hlisted, hshown, hrare⟩ := (hends hwild).mp hrun
    exact ⟨hslots.mp hfilled, hshown, hlisted, hrare⟩
  · rintro ⟨hahead, hshown, hlisted, hrare⟩
    have hfilled := hslots.mpr hahead
    have hwild : ∀ w phraseId, .wildcard w phraseId ∈ emitted ch files text c →
        InDictionaries (encodeTables (writing ch files text c)) w :=
      fun w phraseId hw => token_inDictionaries ch files c (wildcard_mem_processLoop hfilled hw)
    exact ⟨hemitted, hwild, hfilled, (hends hwild).mpr ⟨hlisted, hshown, hrare⟩⟩

/-- The word list `a` and the text `a x b a y b`, of which the last word is taken for `* b`. -/
def slotFiles : CompressFiles where
  dictionary := some [97, 10]
  input := some slotText

lemma slotsAhead_slotText : SlotsAhead .same (tokenizeRaw slotText) := by
  have hlong : lastMark [[97], [120], [98], [97], [121]]
      (wildcardMarks .same (tokenizeRaw slotText)) = none := by decide +kernel
  have hlast : lastMark [[98]] (wildcardMarks .same (tokenizeRaw slotText)) =
      some ⟨[[42], [98]], some 0⟩ := by decide +kernel
  have htokens : tokenizeRaw slotText = [[97], [120], [98], [97], [121], [98]] := by decide
  unfold SlotsAhead
  rw [htokens] at hlong hlast ⊢
  refine .phrase (n := 5) ⟨by decide, by decide, by decide, Or.inr (by decide +kernel), ?_⟩ ?_
    (.phrase (n := 1) ⟨by decide, by decide, by decide, Or.inl (by decide +kernel), ?_⟩ ?_ .nil)
  · intro k hk hle
    omega
  · intro m hm
    rw [List.take_succ_cons] at hm
    cases hlong.symm.trans hm
  · intro k hk _ hle
    simp at hle
    omega
  · intro m hm pos hpos
    cases hlast.symm.trans hm
    cases hpos
    decide

theorem wordsFound_slotFiles : WordsFound stableChoices slotFiles slotText {} := by
  refine (wordsFound_iff stableChoices slotFiles slotText {} rfl (by decide)).mpr
    ⟨slotsAhead_slotText, Or.inr ?_, by decide, ?_⟩
  · decide +kernel
  · decide +kernel

/-- The patterns in the order in which the text has them first, so that `a *` follows `* a`. -/
def firstChoices : Choices where
  orders := ⟨⟨List.reverse, List.reverse_perm⟩, fun _ => .same _, fun _ _ => .same _, .same _⟩
  sortWords := stableChoices.sortWords
  sortPhrases := stableChoices.sortPhrases

/-- The word list `a` and the text `a a a a a a`, of which the last word is taken for `a *`. -/
def sixFiles : CompressFiles where
  dictionary := some [97, 10]
  input := some [97, 32, 97, 32, 97, 32, 97, 32, 97, 32, 97]

theorem not_wordsFound_sixFiles :
    loadDictionaryWords sixFiles.dictionary ≠ [] ∧
      (compress firstChoices sixFiles {}).status = .failed (.write (.wildcard [])) ∧
      ¬ WordsFound firstChoices sixFiles [97, 32, 97, 32, 97, 32, 97, 32, 97, 32, 97] {} := by
  have hstatus : (compress firstChoices sixFiles {}).status = .failed (.write (.wildcard [])) := by
    decide +kernel
  refine ⟨by decide, hstatus, fun hfound => ?_⟩
  rcases hfound.compress with hok | ⟨e, he, hexpected⟩
  · cases hstatus.symm.trans hok
  · cases hstatus.symm.trans he
    exact hexpected

end HashCompress.Compressor
