import HashCompress.SuccessfulRun
import HashCompress.DictionaryRoundTrip
import HashCompress.WildcardCounts

/-!
# The regular phrases

What `find_regular_phrases` appends in terms of the text, and what `process_with_phrases` makes of
any text when only regular phrases are known.
-/
namespace HashCompress.RegularPhrases

open WordText TallyMap KeyTrie CodeTables TokenCodec PhraseMining PhraseSegment DictionaryFile
open InputStream

/-! ### The n-grams of a text -/

/-- Two to five words that follow each other in the text. -/
structure IsNgram (tokens p : List Word) : Prop where
  two_le : 2 ≤ p.length
  le_five : p.length ≤ 5
  within : p <:+: tokens

/-- The number of positions at which `p` starts. -/
def ngramStarts (tokens p : List Word) : ℕ :=
  (List.range tokens.length).countP fun start => p <+: tokens.drop start

/-- An n-gram that occurs twice, or once in a text with fewer than 1000 different ones. -/
structure IsPhrase (tokens p : List Word) : Prop where
  ngram : IsNgram tokens p
  frequent : 2 ≤ ngramStarts tokens p ∨
    (ngramStarts tokens p = 1 ∧ {q | IsNgram tokens q}.ncard < 1000)

lemma mem_ngramsAt_iff {tokens p : List Word} {i : ℕ} :
    p ∈ ngramsAt tokens i ↔ 2 ≤ p.length ∧ p.length ≤ 5 ∧ p <+: tokens.drop i := by
  unfold ngramsAt
  rw [List.mem_map]
  constructor
  · rintro ⟨size, hsize, rfl⟩
    have hfit := List.mem_takeWhile_imp hsize
    have hrange := (List.takeWhile_sublist _).subset hsize
    rw [List.mem_range'_1] at hrange
    rw [decide_eq_true_eq] at hfit
    have hlen : ((tokens.drop i).take size).length = size :=
      List.length_take_of_le (by rw [List.length_drop]; omega)
    exact ⟨by omega, by omega, List.take_prefix _ _⟩
  · rintro ⟨h2, h5, hstart⟩
    refine ⟨p.length, ?_, (List.prefix_iff_eq_take.mp hstart).symm⟩
    have hfit := hstart.length_le
    rw [List.length_drop] at hfit
    -- all smaller sizes fit as well
    have hsplit : List.range' 2 4 =
        List.range' 2 (p.length - 1) ++ List.range' (p.length + 1) (5 - p.length) := by
      have happend := @List.range'_append_1 2 (p.length - 1) (5 - p.length)
      rw [show 2 + (p.length - 1) = p.length + 1 by omega,
        show p.length - 1 + (5 - p.length) = 4 by omega] at happend
      exact happend.symm
    rw [hsplit, List.takeWhile_append_of_pos]
    · exact List.mem_append_left _ (List.mem_range'_1.mpr (by omega))
    · intro size hsize
      rw [List.mem_range'_1] at hsize
      rw [decide_eq_true_eq]
      omega

lemma mem_buildNgrams_iff {tokens p : List Word} :
    p ∈ buildNgrams tokens 2 5 ↔ IsNgram tokens p := by
  constructor
  · intro hp
    obtain ⟨h2, h5, hwithin⟩ := ngram_spec hp
    exact ⟨h2, h5, hwithin⟩
  · rintro ⟨h2, h5, before, after, rfl⟩
    refine List.mem_flatMap.mpr ⟨before.length, List.mem_range.mpr ?_,
      mem_ngramsAt_iff.mpr ⟨h2, h5, ?_⟩⟩
    · rw [List.length_append, List.length_append]
      omega
    · rw [List.append_assoc, List.drop_left]
      exact List.prefix_append p after

lemma finite_ngrams (tokens : List Word) : {p | IsNgram tokens p}.Finite :=
  (List.finite_toSet (buildNgrams tokens 2 5)).subset fun _ hp => mem_buildNgrams_iff.mpr hp

/-- The n-gram is built once for each position at which it starts. -/
lemma count_buildNgrams {tokens p : List Word} (h2 : 2 ≤ p.length) (h5 : p.length ≤ 5) :
    (buildNgrams tokens 2 5).count p = ngramStarts tokens p := by
  rw [List.count_eq_countP]
  refine countP_flatMap_ite fun i _ => ?_
  have hone := count_ngramsAt_le tokens i p
  rw [List.count_eq_countP] at hone
  have hmem : 0 < (ngramsAt tokens i).countP (· == p) ↔ p <+: tokens.drop i := by
    rw [← List.count_eq_countP, List.count_pos_iff, mem_ngramsAt_iff, and_iff_right h2,
      and_iff_right h5]
  change (ngramsAt tokens i).countP (· == p) = _
  split_ifs with hstart
  · have hpos := hmem.mpr hstart
    omega
  · have hzero := mt hmem.mp hstart
    omega

lemma ngramStarts_le (tokens p : List Word) : ngramStarts tokens p ≤ tokens.length :=
  List.countP_le_length.trans_eq List.length_range

/-- With fewer than 2^32 tokens no counter wraps. -/
lemma registered_iff_isPhrase {tokens : List Word} (hsize : tokens.length < 2 ^ 32)
    {p : List Word} : Registered tokens p ↔ IsPhrase tokens p := by
  have hset : {q | IsNgram tokens q} = ↑(buildNgrams tokens 2 5).toFinset := by
    ext q
    rw [List.coe_toFinset]
    exact mem_buildNgrams_iff.symm
  unfold Registered
  rw [mem_buildNgrams_iff]
  constructor
  · rintro ⟨hngram, hfrequent⟩
    have hlt := (ngramStarts_le tokens p).trans_lt hsize
    rw [count_buildNgrams hngram.two_le hngram.le_five, Nat.mod_eq_of_lt hlt] at hfrequent
    refine ⟨hngram, ?_⟩
    rwa [hset, Set.ncard_coe_finset]
  · rintro ⟨hngram, hfrequent⟩
    have hlt := (ngramStarts_le tokens p).trans_lt hsize
    rw [hset, Set.ncard_coe_finset] at hfrequent
    rw [count_buildNgrams hngram.two_le hngram.le_five, Nat.mod_eq_of_lt hlt]
    exact ⟨hngram, hfrequent⟩

/-! ### The appended entries -/

/-- What an entry says about its n-gram. The codes are 32-bit, so they stand for words as long as
the dictionary has no more than 2^32 of them. -/
structure NgramEntry (tokens decode : List Word) (e : PhraseInfo) (p : List Word) : Prop where
  frequency : e.frequency.toNat = ngramStarts tokens p
  hasWildcard : e.hasWildcard = false
  codes : decode.length ≤ 2 ^ 32 →
    e.wordCodes.map (fun code => decode[code.toNat]?) = p.map some

lemma NgramEntry.mono {tokens decode decode' : List Word} {e : PhraseInfo} {p : List Word}
    (h : NgramEntry tokens decode e p) (hgrow : decode <+: decode') :
    NgramEntry tokens decode' e p := by
  refine ⟨h.frequency, h.hasWildcard, fun hle => ?_⟩
  have hentry : (⟨p, p, false⟩ : Addition).Entry decode e :=
    ⟨h.hasWildcard, h.codes (hgrow.length_le.trans hle)⟩
  exact (hentry.mono hgrow).2

/-- The state after the regular pass has added the n-grams `ngrams` to the state `s`. -/
structure Appended (tokens : List Word) (s : MiningState) (ngrams : List (List Word))
    (s' : MiningState) : Prop where
  coherent : s'.main.Coherent
  entries : ∃ entries, s'.phraseDecode = s.phraseDecode ++ entries ∧
    List.Forall₂ (NgramEntry tokens s'.main.decode) entries ngrams ∧
    s'.nonRepeatedPhrases =
      s.nonRepeatedPhrases + UInt32.ofNat (entries.countP fun e => e.frequency = 1)

lemma Appended.snoc {tokens : List Word} {s s' : MiningState} {ngrams : List (List Word)}
    (h : Appended tokens s ngrams s') {ngram : List UInt8} {frequency : UInt32}
    (hfreq : frequency.toNat = ngramStarts tokens (splitWords ngram)) :
    Appended tokens s (ngrams ++ [splitWords ngram]) (addRegularPhrase s' ngram frequency) := by
  have hadds := addRegularPhrase_adds h.coherent ngram frequency
  obtain ⟨entries, happend, hentries, hcount⟩ := h.entries
  obtain ⟨e, he, hentry⟩ := hadds.phrases
  have hgrow : s'.main.decode <+: (addRegularPhrase s' ngram frequency).main.decode := by
    rw [hadds.decode]
    exact prefix_appendNew _ _
  have hfrequency : e.frequency = frequency :=
    congrArg PhraseInfo.frequency (List.singleton_inj.mp (List.append_cancel_left he)).symm
  refine ⟨hadds.coherent, entries ++ [e], ?_, ?_, ?_⟩
  · rw [he, happend, List.append_assoc]
  · refine List.rel_append (hentries.imp fun e p hp => hp.mono hgrow) (.cons ⟨?_, ?_, ?_⟩ .nil)
    · rw [hfrequency, hfreq]
    · exact congrArg PhraseInfo.hasWildcard (List.singleton_inj.mp (List.append_cancel_left he)).symm
    · exact fun hle => (hentry hle).2
  · have hstep : (addRegularPhrase s' ngram frequency).nonRepeatedPhrases =
        if frequency = 1 then s'.nonRepeatedPhrases + 1 else s'.nonRepeatedPhrases := rfl
    rw [hstep, List.countP_append, List.countP_singleton, hfrequency, hcount]
    by_cases hone : frequency = 1
    · simp [hone, UInt32.ofNat_add, UInt32.add_assoc]
    · simp [hone]

section Tokens

variable {tokens : List Word} (htok : ∀ w ∈ tokens, IsToken w) (o : Orders)
include htok

/-- The n-grams that the pass selects, in the order of traversal. -/
lemma appended_findRegularPhrases (hsize : tokens.length < 2 ^ 32) {s : MiningState}
    (h : s.main.Coherent) :
    Appended tokens s ((regularAdditions o tokens).map Addition.path)
      (findRegularPhrases o tokens s) := by
  have hstart : Appended tokens s [] s :=
    ⟨h, [], (List.append_nil _).symm, .nil, (UInt32.add_zero _).symm⟩
  have hpass := @findRegularPhrases_induct _ (Appended tokens s) (fun e => splitWords e.1) o tokens
    ?_ [] s hstart
  · rw [List.nil_append] at hpass
    rw [regularAdditions, List.map_map]
    exact hpass
  · rintro ⟨k, v⟩ he ngrams s' hs'
    apply hs'.snoc
    obtain ⟨hmem, rfl⟩ := mem_entries_tally.mp ((o.ngrams.perm _).mem_iff.mp he)
    obtain ⟨p, hp, rfl⟩ := List.mem_map.mp hmem
    have hngram := mem_buildNgrams_iff.mp hp
    rw [count_joinWords htok hp, count_buildNgrams hngram.two_le hngram.le_five,
      splitWords_joinWords (ngram_isToken htok hp), UInt32.toNat_ofNat',
      Nat.mod_eq_of_lt ((ngramStarts_le tokens p).trans_lt hsize)]

lemma nodup_regularAdditions : ((regularAdditions o tokens).map Addition.path).Nodup := by
  have hkeys := (nodup_keys_run (ngramFreqs tokens) o.ngrams).sublist
    ((List.filter_sublist (p := fun e : Sigma fun _ : List UInt8 => UInt32 =>
      minPhraseFreq ≤ e.2 ∨ (e.2 = 1 ∧ (ngramFreqs tokens).entries.length < 1000))).map _)
  rw [regularAdditions, List.map_map]
  refine hkeys.of_map.map_on fun e he e' he' heq => ?_
  obtain ⟨p, hp, rfl⟩ := (mem_selectedNgrams htok o).mp he
  obtain ⟨q, hq, rfl⟩ := (mem_selectedNgrams htok o).mp he'
  have hpq : p = q := by
    rw [← splitWords_ngram htok hp, ← splitWords_ngram htok hq]
    exact heq
  rw [hpq]

lemma mem_paths_regularAdditions {p : List Word} :
    p ∈ (regularAdditions o tokens).map Addition.path ↔ Registered tokens p := by
  rw [List.mem_map]
  exact exists_regularAddition htok o

end Tokens

/-- For every text of fewer than 2^32 tokens, every order of traversal and every state with a
coherent dictionary: the pass appends one entry for each n-gram that occurs often enough. -/
theorem findRegularPhrases_exact (text : List UInt8) (o : Orders) (s : MiningState)
    (hmain : s.main.Coherent) (hsize : (Tokenizer.tokenizeRaw text).length < 2 ^ 32) :
    ∃ entries ngrams,
      (findRegularPhrases o (Tokenizer.tokenizeRaw text) s).phraseDecode =
        s.phraseDecode ++ entries ∧
      ngrams.Nodup ∧ (∀ p, p ∈ ngrams ↔ IsPhrase (Tokenizer.tokenizeRaw text) p) ∧
      List.Forall₂ (NgramEntry (Tokenizer.tokenizeRaw text)
        (findRegularPhrases o (Tokenizer.tokenizeRaw text) s).main.decode) entries ngrams ∧
      (findRegularPhrases o (Tokenizer.tokenizeRaw text) s).nonRepeatedPhrases =
        s.nonRepeatedPhrases + UInt32.ofNat (entries.countP fun e => e.frequency = 1) := by
  have htok : ∀ w ∈ Tokenizer.tokenizeRaw text, IsToken w :=
    fun w hw => Tokenizer.tokenizeRaw_isToken hw
  obtain ⟨entries, happend, hentries, hcount⟩ :=
    (appended_findRegularPhrases htok o hsize hmain).entries
  refine ⟨entries, _, happend, nodup_regularAdditions htok o, fun p => ?_, hentries, hcount⟩
  rw [mem_paths_regularAdditions htok o, registered_iff_isPhrase hsize]

/-- The state before the phrase passes, for a main dictionary of the given words. -/
def stateFor (words : List Word) : MiningState :=
  ⟨⟨buildEncode words, words⟩, Trie.leaf {}, [], 0⟩

theorem findRegularPhrases_exact_pair :
    ∃ entries ngrams,
      (findRegularPhrases .same (Tokenizer.tokenizeRaw pairText) (stateFor [[97]])).phraseDecode =
        [] ++ entries ∧
      ngrams.Nodup ∧ (∀ p, p ∈ ngrams ↔ IsPhrase (Tokenizer.tokenizeRaw pairText) p) ∧
      List.Forall₂ (NgramEntry (Tokenizer.tokenizeRaw pairText)
        (findRegularPhrases .same (Tokenizer.tokenizeRaw pairText) (stateFor [[97]])).main.decode)
        entries ngrams ∧
      (findRegularPhrases .same (Tokenizer.tokenizeRaw pairText)
          (stateFor [[97]])).nonRepeatedPhrases =
        0 + UInt32.ofNat (entries.countP fun e => e.frequency = 1) :=
  findRegularPhrases_exact pairText .same (stateFor [[97]])
    (Compressor.buildEncode_coherent [[97]]) (by decide)

/-! ### A dictionary with no code left -/

/-- Two new words get the codes behind the dictionary. -/
lemma codesOf_new_pair {d : MainDict} (h : d.Coherent) {v w : Word} (hv : v ∉ d.decode)
    (hw : w ∉ d.decode) (hne : w ≠ v) :
    (codesOf (fun _ => false) d [v, w]).1 =
        [UInt32.ofNat d.decode.length, UInt32.ofNat (d.decode.length + 1)] ∧
      (codesOf (fun _ => false) d [v, w]).2.decode = d.decode ++ [v, w] := by
  have hlookup : ∀ x, x ∉ d.decode → d.encode.lookup x = none :=
    fun x hx => AList.lookup_eq_none.mpr fun hmem => hx ((h.keys x).mp hmem)
  simp [codesOf, MainDict.codeOf, hlookup v hv, hlookup w hw, AList.lookup_insert_ne hne]

lemma ngramFreqs_pair : (ngramFreqs [[97], [98]]).entries = [⟨[97, 32, 98], 1⟩] ∧
    splitWords [97, 32, 98] = [[97], [98]] := by
  decide +kernel

lemma findRegularPhrases_new_pair {words : List Word} (ha : [97] ∉ words) (hb : [98] ∉ words) :
    (findRegularPhrases .same [[97], [98]] (stateFor words)).phraseDecode =
        [⟨[UInt32.ofNat words.length, UInt32.ofNat (words.length + 1)], 1, false, 0⟩] ∧
      (findRegularPhrases .same [[97], [98]] (stateFor words)).main.decode =
        words ++ [[97], [98]] := by
  obtain ⟨hfreqs, hsplit⟩ := ngramFreqs_pair
  obtain ⟨hcodes, hdecode⟩ := codesOf_new_pair (Compressor.buildEncode_coherent words)
    (v := [97]) (w := [98]) ha hb (by decide)
  have hpass : findRegularPhrases .same [[97], [98]] (stateFor words) =
      addRegularPhrase (stateFor words) [97, 32, 98] 1 := by
    rw [findRegularPhrases, hfreqs]
    rfl
  rw [hpass, addRegularPhrase, hsplit]
  exact ⟨congrArg (fun codes => [(⟨codes, 1, false, 0⟩ : PhraseInfo)]) hcodes, hdecode⟩

def numerals (count : ℕ) : List Word := (List.range count).map decimal

lemma length_numerals (count : ℕ) : (numerals count).length = count := by
  rw [numerals, List.length_map, List.length_range]

lemma not_mem_numerals {b : UInt8} (hb : isDigit b = false) (count : ℕ) : [b] ∉ numerals count := by
  intro hmem
  obtain ⟨n, -, hn⟩ := List.mem_map.mp hmem
  have hdigit : isDigit b = true := decimal_isDigit (n := n) (by rw [hn]; exact List.mem_singleton_self b)
  rw [hb] at hdigit
  cases hdigit

/-- The second word of the pair gets the code of the first word of the dictionary. -/
lemma newPair_wraps {words : List Word} (ha : [97] ∉ words) (hb : [98] ∉ words)
    (hfull : words.length + 1 = 2 ^ 32) :
    ∃ e first, (findRegularPhrases .same [[97], [98]] (stateFor words)).phraseDecode = [e] ∧
      e.hasWildcard = false ∧ first ≠ [98] ∧
      e.wordCodes.map (fun code =>
        (findRegularPhrases .same [[97], [98]] (stateFor words)).main.decode[code.toNat]?) =
        [some [97], some first] := by
  obtain ⟨hphrases, hdecode⟩ := findRegularPhrases_new_pair ha hb
  have hpos : 0 < words.length := by omega
  refine ⟨_, words[0], hphrases, rfl, fun heq => hb (heq ▸ List.getElem_mem hpos), ?_⟩
  have hlast : (UInt32.ofNat words.length).toNat = words.length :=
    UInt32.toNat_ofNat_of_lt' (by rw [UInt32.size]; omega)
  have hzero : (UInt32.ofNat (words.length + 1)).toNat = 0 := by
    rw [UInt32.toNat_ofNat', hfull, Nat.mod_self]
  rw [hdecode, List.map_cons, List.map_cons, List.map_nil, hlast, hzero,
    List.getElem?_append_right le_rfl, List.getElem?_append_left hpos, Nat.sub_self,
    List.getElem?_eq_getElem hpos]
  rfl

lemma newPair_not_decoded {words : List Word} (ha : [97] ∉ words) (hb : [98] ∉ words)
    (hfull : words.length + 1 = 2 ^ 32) :
    ¬ ∃ e ∈ (findRegularPhrases .same [[97], [98]] (stateFor words)).phraseDecode,
      e.wordCodes.map (fun code =>
        (findRegularPhrases .same [[97], [98]] (stateFor words)).main.decode[code.toNat]?) =
        [some [97], some [98]] := by
  obtain ⟨e, first, hphrases, -, hfirst, hcodes⟩ := newPair_wraps ha hb hfull
  rintro ⟨e', he', heq⟩
  rw [hphrases, List.mem_singleton] at he'
  subst he'
  rw [hcodes] at heq
  simp only [List.cons.injEq, Option.some.injEq, and_true, true_and] at heq
  exact hfirst heq

lemma newWords_numerals (count : ℕ) : [97] ∉ numerals count ∧ [98] ∉ numerals count :=
  ⟨not_mem_numerals (by decide) count, not_mem_numerals (by decide) count⟩

/-- With a dictionary of 2^32 - 1 words, one of two new words gets a code that is in use. -/
theorem findRegularPhrases_wrapped :
    IsPhrase (Tokenizer.tokenizeRaw pairText) [[97], [98]] ∧
      ¬ ∃ e ∈ (findRegularPhrases .same (Tokenizer.tokenizeRaw pairText)
          (stateFor (numerals (2 ^ 32 - 1)))).phraseDecode,
        e.wordCodes.map (fun code => (findRegularPhrases .same (Tokenizer.tokenizeRaw pairText)
          (stateFor (numerals (2 ^ 32 - 1)))).main.decode[code.toNat]?) = [some [97], some [98]] := by
  have htokens : Tokenizer.tokenizeRaw pairText = [[97], [98]] := by decide
  have hfull : (numerals (2 ^ 32 - 1)).length + 1 = 2 ^ 32 := by
    rw [length_numerals]
    norm_num
  obtain ⟨ha, hb⟩ := newWords_numerals (2 ^ 32 - 1)
  generalize numerals (2 ^ 32 - 1) = words at ha hb hfull
  rw [htokens]
  refine ⟨(registered_iff_isPhrase (by decide)).mp (by decide +kernel), ?_⟩
  exact newPair_not_decoded ha hb hfull

/-! ### Segmenting with regular phrases only -/

/-- The phrases that the pass registers for the mined tokens, whatever strings these are. -/
def Registers (mined : List Word) (p : List Word) : Prop :=
  ∃ entry ∈ (ngramFreqs mined).entries,
    (minPhraseFreq ≤ entry.2 ∨ (entry.2 = 1 ∧ (ngramFreqs mined).entries.length < 1000)) ∧
      splitWords entry.1 = p

/-- The greedy segmentation of a text: a phrase, with the id that belongs to its words, wherever one
starts and then the longest, a word elsewhere. -/
inductive Greedy (registered : List Word → Prop) (idOf : List Word → UInt32) :
    List Word → List Token → Prop where
  | nil : Greedy registered idOf [] []
  | word {token : Word} {rest : List Word} {out : List Token}
      (hno : NoMatch registered 5 (token :: rest)) (h : Greedy registered idOf rest out) :
      Greedy registered idOf (token :: rest) (.word token :: out)
  | phrase {tokens : List Word} {n : ℕ} {out : List Token} (hn : Longest registered 5 tokens n)
      (h : Greedy registered idOf (tokens.drop n) out) :
      Greedy registered idOf tokens (.phrase (idOf (tokens.take n)) :: out)

section Greedy

variable {registered : List Word → Prop} {idOf : List Word → UInt32}

lemma Greedy.no_wildcard {tokens : List Word} {out : List Token} (h : Greedy registered idOf tokens out) :
    ∀ w phraseId, Token.wildcard w phraseId ∉ out := by
  induction h with
  | nil => exact fun w phraseId => List.not_mem_nil
  | word hno h ih => exact fun w phraseId => by simpa using ih w phraseId
  | phrase hn h ih => exact fun w phraseId => by simpa using ih w phraseId

lemma Greedy.segmented {tokens : List Word} {out : List Token} (h : Greedy registered idOf tokens out)
    {ok : List Word → Prop} (hok : ∀ p, registered p → ok p) : Segmented registered ok tokens := by
  induction h with
  | nil => exact .nil
  | word hno h ih => exact .word hno ih
  | phrase hn h ih => exact .phrase hn (hok _ hn.ends) ih

/-- A text that is a phrase is segmented into itself. -/
lemma Greedy.whole {p : List Word} {out : List Token} (h : Greedy registered idOf p out)
    (hp : registered p) (hpos : 0 < p.length) (h5 : p.length ≤ 5) : out = [.phrase (idOf p)] := by
  have hlong : Longest registered 5 p p.length :=
    ⟨hpos, h5, le_rfl, by rwa [List.take_length], fun k hk _ hle => absurd hle (by omega)⟩
  cases h with
  | nil => cases hpos
  | word hno h => exact absurd hlong hno.not_longest
  | @phrase _ n out hn h =>
    obtain rfl := hn.unique hlong
    rw [List.drop_length] at h
    rw [List.take_length]
    cases h with
    | nil => rfl
    | phrase hn h =>
      have hempty := hn.pos.trans_le hn.le_length
      cases hempty

/-- Without wildcard flags in the trie the loop emits the greedy segmentation. -/
lemma greedy_processLoop {root : PhraseNode} (hplain : ∀ p, (root.infoAt {} p).hasWildcard = false)
    {fuel : ℕ} {tokens : List Word} (hfuel : tokens.length ≤ fuel) :
    Greedy (EndsAt root) (fun p => (root.infoAt {} p).phraseId) tokens
      (processLoop root fuel tokens) := by
  induction fuel generalizing tokens with
  | zero =>
    obtain rfl : tokens = [] := List.eq_nil_of_length_eq_zero (by omega)
    exact .nil
  | succ fuel ih =>
    cases tokens with
    | nil => exact .nil
    | cons token rest =>
      unfold processLoop
      rcases matchPhrase_spec root (token :: rest) with ⟨n, hn, hmatch⟩ | ⟨hno, hmatch⟩
      · have hrest := hn.length_rest hfuel
        rw [hmatch]
        dsimp only
        rw [matchTokens, hplain, if_neg Bool.false_ne_true]
        exact .phrase hn (ih hrest)
      · rw [hmatch]
        exact .word hno (ih (by simpa using hfuel))

end Greedy

section Pass

variable {main : MainDict} (h : main.Coherent) (o : Orders) (mined : List Word) (nonRepeated : UInt32)

lemma registers_iff {p : List Word} :
    (∃ m ∈ regularAdditions o mined, m.path = p) ↔ Registers mined p := by
  unfold regularAdditions Registers
  constructor
  · rintro ⟨m, hm, rfl⟩
    obtain ⟨entry, hentry, rfl⟩ := List.mem_map.mp hm
    obtain ⟨hmem, hsel⟩ := List.mem_filter.mp hentry
    exact ⟨entry, (o.ngrams.perm _).mem_iff.mp hmem, of_decide_eq_true hsel, rfl⟩
  · rintro ⟨entry, hmem, hsel, rfl⟩
    exact ⟨ngramAddition entry, List.mem_map_of_mem (List.mem_filter.mpr
      ⟨(o.ngrams.perm _).mem_iff.mpr hmem, decide_eq_true hsel⟩), rfl⟩

include h

lemma mined_findRegularPhrases : Mined main (regularAdditions o mined)
    (findRegularPhrases o mined ⟨main, Trie.leaf {}, [], nonRepeated⟩) :=
  findRegularPhrases_induct ngramAddition
    (fun e _ _ _ hmined => hmined.snoc (addRegularPhrase_adds hmined.coherent e.1 e.2))
    (mined_nil h nonRepeated)

lemma endsAt_findRegularPhrases :
    EndsAt (findRegularPhrases o mined ⟨main, Trie.leaf {}, [], nonRepeated⟩).phraseTrieRoot =
      Registers mined := by
  funext p
  rw [EndsAt, (mined_findRegularPhrases h o mined nonRepeated).isEnd, registers_iff]

lemma plain_findRegularPhrases (p : List Word) :
    ((findRegularPhrases o mined ⟨main, Trie.leaf {}, [], nonRepeated⟩).phraseTrieRoot.infoAt {}
      p).hasWildcard = false := by
  rw [← Bool.not_eq_true, (mined_findRegularPhrases h o mined nonRepeated).hasWildcard]
  rintro ⟨m, hm, -, hwild⟩
  rw [wild_regularAdditions o hm] at hwild
  cases hwild

lemma greedy_findRegularPhrases (encoded : List Word) :
    Greedy (Registers mined)
      (fun p => ((findRegularPhrases o mined
        ⟨main, Trie.leaf {}, [], nonRepeated⟩).phraseTrieRoot.infoAt {} p).phraseId) encoded
      (processWithPhrases (findRegularPhrases o mined
        ⟨main, Trie.leaf {}, [], nonRepeated⟩).phraseTrieRoot encoded) := by
  rw [← endsAt_findRegularPhrases h o mined nonRepeated]
  exact greedy_processLoop (plain_findRegularPhrases h o mined nonRepeated) le_rfl

lemma phraseTable_findRegularPhrases
    (hwords : (findRegularPhrases o mined
      ⟨main, Trie.leaf {}, [], nonRepeated⟩).main.decode.length ≤ 2 ^ 32)
    (hphrases : (findRegularPhrases o mined
      ⟨main, Trie.leaf {}, [], nonRepeated⟩).phraseDecode.length ≤ 2 ^ 32) :
    PhraseTable (fun _ => False) (Registers mined)
      (findRegularPhrases o mined ⟨main, Trie.leaf {}, [], nonRepeated⟩).main.decode
      (findRegularPhrases o mined ⟨main, Trie.leaf {}, [], nonRepeated⟩).phraseDecode
      (findRegularPhrases o mined ⟨main, Trie.leaf {}, [], nonRepeated⟩).phraseTrieRoot := by
  have hmined := mined_findRegularPhrases h o mined nonRepeated
  refine ⟨fun p => ?_, fun p => ?_, fun p hp => ?_, fun p hno => hno.elim⟩
  · rw [endsAt_findRegularPhrases h, false_or]
  · rw [plain_findRegularPhrases h]
    exact iff_of_false Bool.false_ne_true id
  · obtain ⟨m, hm⟩ := Option.isSome_iff_exists.mp
      (lastAt_isSome.mpr ((registers_iff o mined).mpr hp))
    obtain ⟨hmem, rfl⟩ := mem_of_lastAt hm
    obtain ⟨e, he, hwild, hcodes⟩ := hmined.entry hwords hphrases m.path m hm
    rw [wild_regularAdditions o hmem] at hwild hcodes
    exact ⟨e, he, hwild, hcodes⟩

end Pass

/-- Expanding what the tokens were segmented into gives the tokens again. -/
def ExpandsBack (stray : Stray) (s : MiningState) (encoded : List Word) : Prop :=
  expand stray s.main.decode s.phraseDecode (processWithPhrases s.phraseTrieRoot encoded) =
    some encoded

/-- For all mined and encoded tokens, every order and every coherent dictionary, after the regular
pass alone: the output is the greedy segmentation into registered phrases and words, without
wildcards, and it expands to the encoded tokens if codes and phrase ids fit 32 bits. -/
theorem processWithPhrases_regular (o : Orders) (main : MainDict) (h : main.Coherent)
    (nonRepeated : UInt32) (mined encoded : List Word) :
    let s := findRegularPhrases o mined ⟨main, Trie.leaf {}, [], nonRepeated⟩
    Greedy (Registers mined) (fun p => (s.phraseTrieRoot.infoAt {} p).phraseId) encoded
        (processWithPhrases s.phraseTrieRoot encoded) ∧
      (∀ w phraseId, Token.wildcard w phraseId ∉ processWithPhrases s.phraseTrieRoot encoded) ∧
      ((∀ w ∈ mined, IsToken w) → ∀ p, Registers mined p ↔ Registered mined p) ∧
      (s.main.decode.length ≤ 2 ^ 32 → s.phraseDecode.length ≤ 2 ^ 32 →
        ∀ stray, ExpandsBack stray s encoded) := by
  intro s
  have hgreedy := greedy_findRegularPhrases h o mined nonRepeated encoded
  refine ⟨hgreedy, hgreedy.no_wildcard, fun htok p => ?_, fun hwords hphrases stray => ?_⟩
  · rw [← registers_iff o mined, exists_regularAddition htok o]
  · have htable := phraseTable_findRegularPhrases h o mined nonRepeated hwords hphrases
    refine (expand_processLoop_iff htable stray le_rfl).mpr ?_
    rw [endsAt_findRegularPhrases h o mined nonRepeated]
    exact hgreedy.segmented fun p hp => ⟨hp, Or.inr id⟩

/-- The phrase `a b`, met in `a b a`. -/
theorem processWithPhrases_regular_pair :
    ExpandsBack .reject (findRegularPhrases .same [[97], [98]] ⟨⟨∅, []⟩, Trie.leaf {}, [], 0⟩)
      [[97], [98], [97]] :=
  (processWithPhrases_regular .same ⟨∅, []⟩ coherent_empty 0 [[97], [98]]
    [[97], [98], [97]]).2.2.2 (by decide +kernel) (by decide +kernel) .reject

/-! ### Codes and ids that wrap -/

lemma newPair_not_expanded {words : List Word} (ha : [97] ∉ words) (hb : [98] ∉ words)
    (hfull : words.length + 1 = 2 ^ 32) :
    ¬ ExpandsBack .skip (findRegularPhrases .same [[97], [98]] (stateFor words)) [[97], [98]] := by
  obtain ⟨e, first, hphrases, hplain, hfirst, hcodes⟩ := newPair_wraps ha hb hfull
  obtain ⟨hfreqs, hsplit⟩ := ngramFreqs_pair
  have hreg : Registers [[97], [98]] [[97], [98]] :=
    ⟨⟨[97, 32, 98], 1⟩, by rw [hfreqs]; exact List.mem_singleton_self _,
      Or.inr ⟨rfl, by rw [hfreqs]; decide⟩, hsplit⟩
  have hout := (greedy_findRegularPhrases (Compressor.buildEncode_coherent words) .same
    [[97], [98]] 0 [[97], [98]]).whole hreg (by decide) (by decide)
  have hwords : phraseWords (findRegularPhrases .same [[97], [98]] (stateFor words)).main.decode none
      e = some [[97], first] := by
    rw [phraseWords, @expandCodes_of_codes _ [[97], first] _ 0 hcodes]
  intro hback
  rw [ExpandsBack] at hback
  rw [show processWithPhrases (findRegularPhrases .same [[97], [98]]
    (stateFor words)).phraseTrieRoot [[97], [98]] = _ from hout, hphrases, expand] at hback
  generalize UInt32.toNat _ = i at hback
  cases i with
  | zero => simp [hplain, hwords, expand, hfirst] at hback
  | succ i => simp at hback

/-- More than 2^32 phrases: two of them share an id, and one of the two is lost. -/
lemma doubled_not_expanded {count : ℕ} (hcount : 2 * count < 2 ^ 32)
    (hmany : 2 ^ 32 < 4 * (count - 4)) :
    ∃ encoded, ¬ ExpandsBack .skip (findRegularPhrases .same (doubled count) (stateFor []))
      encoded := by
  by_contra hall
  simp only [not_exists, not_not] at hall
  set s := findRegularPhrases .same (doubled count) (stateFor []) with hs
  have hcoherent := Compressor.buildEncode_coherent []
  have hcard := hmany.trans_le (card_registered_doubled hcount)
  rw [← Finset.card_range (2 ^ 32)] at hcard
  obtain ⟨p, hp, q, hq, hne, hid⟩ := Finset.exists_ne_map_eq_of_card_lt_of_maps_to hcard
    (f := fun p => (s.phraseTrieRoot.infoAt {} p).phraseId.toNat)
    fun p _ => Finset.mem_coe.mpr (Finset.mem_range.mpr (UInt32.toNat_lt _))
  have hsingle : ∀ p ∈ (registeredNgrams (doubled count)).toFinset,
      expand .skip s.main.decode s.phraseDecode
        [.phrase (s.phraseTrieRoot.infoAt {} p).phraseId] = some p := by
    intro p hp
    have hreg := mem_registeredNgrams.mp (List.mem_toFinset.mp hp)
    have hngram := mem_buildNgrams_iff.mp hreg.1
    have hregisters : Registers (doubled count) p :=
      (registers_iff .same (doubled count)).mp ((exists_regularAddition doubled_isToken .same).mpr hreg)
    have hout := (greedy_findRegularPhrases hcoherent .same (doubled count) 0 p).whole hregisters
      (by have := hngram.two_le; omega) hngram.le_five
    have hback := hall p
    rwa [ExpandsBack, show processWithPhrases s.phraseTrieRoot p = _ from hout] at hback
  have hp' := hsingle p hp
  have hq' := hsingle q hq
  rw [UInt32.toNat_inj.mp hid, hq', Option.some.injEq] at hp'
  exact hne hp'.symm

/-- Neither bound can be left out: the pair of new words in a full dictionary, and the numbers below
2^30 + 6 written twice for an empty one. -/
theorem processWithPhrases_regular_wrapped :
    ¬ ExpandsBack .skip
        (findRegularPhrases .same [[97], [98]] (stateFor (numerals (2 ^ 32 - 1)))) [[97], [98]] ∧
      ∃ encoded, ¬ ExpandsBack .skip
        (findRegularPhrases .same (doubled (2 ^ 30 + 6)) (stateFor [])) encoded := by
  have hfull : (numerals (2 ^ 32 - 1)).length + 1 = 2 ^ 32 := by
    rw [length_numerals]
    norm_num
  obtain ⟨ha, hb⟩ := newWords_numerals (2 ^ 32 - 1)
  generalize numerals (2 ^ 32 - 1) = words at ha hb hfull
  exact ⟨newPair_not_expanded ha hb hfull, doubled_not_expanded (by norm_num) (by norm_num)⟩

end HashCompress.RegularPhrases
