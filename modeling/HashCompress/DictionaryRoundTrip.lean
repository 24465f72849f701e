import HashCompress.TokenLoop
import HashCompress.PhraseMarks

/-!
# Writing and loading the dictionaries

`load_dictionaries` on the text that `write_dictionaries` produces.
-/
namespace HashCompress.DictionaryFile

open InputStream WordText TallyMap CodeTables PhraseMining

/-- A phrase whose fields fit the variables of the loader, and whose wildcard position is 0 if it
has no wildcard. -/
structure Storable (p : PhraseInfo) : Prop where
  codes : p.wordCodes.length < 2 ^ 32
  pos : p.wildcardPos < 2 ^ 64
  plain : p.hasWildcard = false → p.wildcardPos = 0

/-- A number between two blanks. -/
lemma extractNat_field {max n : ℕ} (old : ℕ) (hn : n ≤ max) (tail : List UInt8) :
    IStream.extractNat max old { rest := 32 :: (decimal n ++ 32 :: tail) } =
      (n, { rest := 32 :: tail }) :=
  extractNat_decimal old hn (by decide) [32] (by simp [isSpace]) tail

lemma readCodes_written (old : ℕ → UInt32) (codes : List UInt32) (j : ℕ) :
    readCodes old codes.length j
      { rest := 32 :: codes.flatMap (fun code => decimal code.toNat ++ [32]) } = codes := by
  induction codes generalizing j with
  | nil => rfl
  | cons code codes ih =>
    have hcode := code.toNat_lt
    have hread := extractNat_field (old j).toNat (by omega : code.toNat ≤ 2 ^ 32 - 1)
      (codes.flatMap fun code => decimal code.toNat ++ [32])
    simp only [List.length_cons, readCodes, List.flatMap_cons, List.append_assoc,
      List.singleton_append, hread, ih, UInt32.ofNat_toNat]

/-- The part of a phrase line behind the wildcard fields. -/
def lineTail (p : PhraseInfo) : List UInt8 :=
  decimal p.wordCodes.length ++ 32 :: (decimal p.frequency.toNat ++ 32 ::
    p.wordCodes.flatMap (fun code => decimal code.toNat ++ [32]))

lemma phraseLine_wildcard {p : PhraseInfo} (h : p.hasWildcard = true) :
    phraseLine p = decimal 1 ++ 32 :: (decimal p.wildcardPos ++ 32 :: lineTail p) := by
  have hone : decimal 1 = [49] := by decide
  simp [phraseLine, lineTail, h, hone]

lemma phraseLine_plain {p : PhraseInfo} (h : p.hasWildcard = false) :
    phraseLine p = decimal 0 ++ 32 :: lineTail p := by
  have hzero : decimal 0 = [48] := by decide
  simp [phraseLine, lineTail, h, hzero]

/-- Every field of a phrase line is read back as it was printed. -/
lemma readPhraseLine_written (u : Uninit) (i : ℕ) {p : PhraseInfo} (hp : Storable p) :
    readPhraseLine u i (phraseLine p) = p := by
  obtain ⟨hcodes, hpos, hplain⟩ := hp
  have hsep : isDigit 32 = false := by decide
  have hfreq := p.frequency.toNat_lt
  have hcount := extractNat_field (u.phraseWordCount i).toNat
    (by omega : p.wordCodes.length ≤ 2 ^ 32 - 1) (decimal p.frequency.toNat ++ 32 ::
      p.wordCodes.flatMap fun code => decimal code.toNat ++ [32])
  rw [← lineTail] at hcount
  have hfrequency := extractNat_field 0 (by omega : p.frequency.toNat ≤ 2 ^ 32 - 1)
    (p.wordCodes.flatMap fun code => decimal code.toNat ++ [32])
  unfold readPhraseLine
  cases hw : p.hasWildcard with
  | true =>
    have hflag := extractInt_decimal (u.hasWildcard i) (by omega : 1 ≤ 2 ^ 31 - 1) hsep [] (by simp)
      (decimal p.wildcardPos ++ 32 :: lineTail p)
    have hslot := extractNat_field 0 (by omega : p.wildcardPos ≤ 2 ^ 64 - 1) (lineTail p)
    rw [List.nil_append] at hflag
    rw [phraseLine_wildcard hw]
    dsimp only
    rw [hflag, Nat.cast_one]
    dsimp only
    rw [if_pos rfl, hslot]
    dsimp only
    rw [hcount]
    dsimp only
    rw [hfrequency]
    dsimp only
    rw [readCodes_written, UInt32.ofNat_toNat, decide_eq_true rfl, ← hw]
  | false =>
    have hflag := extractInt_decimal (u.hasWildcard i) (by omega : 0 ≤ 2 ^ 31 - 1) hsep [] (by simp)
      (lineTail p)
    rw [List.nil_append] at hflag
    have hne : ¬ ((0 : ℕ) : ℤ) = 1 := by decide
    have hzero := hplain hw
    rw [phraseLine_plain hw]
    dsimp only
    rw [hflag]
    dsimp only
    rw [if_neg hne]
    dsimp only
    rw [hcount]
    dsimp only
    rw [hfrequency]
    dsimp only
    rw [readCodes_written, UInt32.ofNat_toNat, decide_eq_false hne]
    obtain ⟨wordCodes, frequency, hasWildcard, wildcardPos⟩ := p
    simp only at hw hzero
    rw [hw, hzero]

lemma readPhrases_written (u : Uninit) {phrases : List PhraseInfo}
    (hphrases : ∀ p ∈ phrases, Storable p) (i : ℕ) :
    readPhrases u phrases.length i
      { rest := phrases.flatMap (fun p => phraseLine p ++ [10]) } = phrases := by
  induction phrases generalizing i with
  | nil => rfl
  | cons p phrases ih =>
    have hget := getline_line (phraseLine_no_line_end p)
      (phrases.flatMap (fun p => phraseLine p ++ [10]))
    have hrest := ih (fun q hq => hphrases q (List.mem_cons_of_mem _ hq)) (i + 1)
    simp only [List.flatMap_cons, List.append_assoc, List.singleton_append, List.length_cons,
      readPhrases, hget, if_neg (phraseLine_ne_nil p), hrest,
      readPhraseLine_written u i (hphrases p List.mem_cons_self)]

/-! ### Too many phrases -/

lemma readWords_fail (n : ℕ) {s : IStream} (h : s.fail = true) : readWords n s = ([], s) := by
  induction n with
  | zero => rfl
  | succ n ih => simp only [readWords, getline_fail h, ih, if_true]

lemma readPhrases_fail (u : Uninit) (n i : ℕ) {s : IStream} (h : s.fail = true) :
    readPhrases u n i s = [] := by
  induction n generalizing i with
  | zero => rfl
  | succ n ih => simp only [readPhrases, getline_fail h, ih, if_true]

/-- A count that does not fit 32 bits stops the loader before the first line. -/
lemma loadDictionaries_overflow (u : Uninit) {words : List Word} {phrases : List PhraseInfo}
    (hwords : words.length < 2 ^ 32) (hphrases : 2 ^ 32 ≤ phrases.length) :
    loadDictionaries u (writeDictionaries words phrases) = ([], []) := by
  have hsecond := extractNat_overflow u.phraseCount.toNat (by omega : 2 ^ 32 - 1 < phrases.length)
    (by decide : isDigit 10 = false) [32] (by simp [isSpace]) (dictionaryLines words phrases)
  unfold loadDictionaries
  dsimp only
  rw [extractNat_wordCount u phrases hwords]
  dsimp only
  rw [hsecond]
  dsimp only
  rw [getline_fail rfl]
  dsimp only
  rw [readWords_fail _ rfl, readPhrases_fail _ _ _ rfl]

/-- Both lists come back exactly, as long as there are fewer than 2^32 phrases. -/
theorem loadDictionaries_restores_iff (u : Uninit) {words : List Word} {phrases : List PhraseInfo}
    (hwords : words.length < 2 ^ 32) (hne : ∀ w ∈ words, w ≠ [])
    (hline : ∀ w ∈ words, (10 : UInt8) ∉ w) (hphrases : ∀ p ∈ phrases, Storable p) :
    loadDictionaries u (writeDictionaries words phrases) = (words, phrases) ↔
      phrases.length < 2 ^ 32 := by
  constructor
  · intro hload
    by_contra hmany
    rw [loadDictionaries_overflow u hwords (not_lt.mp hmany), Prod.mk.injEq] at hload
    rw [← hload.2] at hmany
    exact hmany (by simp)
  · intro hfew
    rw [loadDictionaries_eq u hwords hfew hne hline, readPhrases_written u hphrases]

/-- The words `a` and ` b c`, and the phrases `a *` and `a a`. -/
def sampleWords : List Word := [[0x61], [0x20, 0x62, 0x20, 0x63], [0x61]]

def samplePhrases : List PhraseInfo := [⟨[0, 4294967295], 2, true, 1⟩, ⟨[0, 0], 3, false, 0⟩]

theorem loadDictionaries_restores_sample :
    loadDictionaries TokenLoop.zeroUninit (writeDictionaries sampleWords samplePhrases) =
      (sampleWords, samplePhrases) := by
  refine (loadDictionaries_restores_iff _ (by decide) (by decide) (by decide) ?_).mpr (by decide)
  intro p hp
  fin_cases hp
  · exact ⟨by decide, by decide, by decide⟩
  · exact ⟨by decide, by decide, by decide⟩

/-! ### The phrases that the passes build -/

/-- The phrases that the two passes build can be stored. -/
theorem storable_minePhrases {tokens : List Word} (htok : ∀ w ∈ tokens, IsToken w)
    {main : MainDict} (h : main.Coherent) (o : Orders)
    (hsize : (minePhrases o tokens main).main.decode.length ≤ 2 ^ 32) :
    ∀ p ∈ (minePhrases o tokens main).phraseDecode, Storable p := by
  intro p hp
  obtain ⟨m, hm, hentry⟩ := forall₂_of_mem_right ((marked_minePhrases htok h o).entries hsize) hp
  have hlen := hentry.codes.length_eq
  rcases List.mem_append.mp hm with hm | hm
  · obtain ⟨occ, hocc, rfl⟩ := (mem_wildcardMarks htok o).mp hm
    obtain ⟨-, hle, hpos⟩ := pattern_bounds (mem_selectedOccurrences.mp hocc).1
    have hslot : p.wildcardPos = occ.pos := hentry.wildcardPos
    refine ⟨by rw [← hlen]; exact hle.trans_lt (by decide), ?_, fun hplain => ?_⟩
    · rw [hslot]
      exact (hpos.trans_le hle).trans (by decide)
    · rw [hentry.hasWildcard] at hplain
      cases hplain
  · obtain ⟨q, hq, rfl⟩ := (mem_regularMarks htok o).mp hm
    have hle := (ngram_spec (mem_registeredNgrams.mp hq).1).2.1
    have hslot : p.wildcardPos = 0 := hentry.wildcardPos
    refine ⟨by rw [← hlen]; exact hle.trans_lt (by decide), ?_, fun _ => hslot⟩
    rw [hslot]
    decide

/-! ### A text with 2^32 phrases -/

/-- The numbers below `count`, twice. -/
def doubled (count : ℕ) : List Word :=
  (List.range count).map decimal ++ (List.range count).map decimal

/-- The n-gram of the numbers `i, …, i + k - 1`. -/
def run (i k : ℕ) : List Word := (List.range' i k).map decimal

lemma decimal_injective : Function.Injective decimal := by
  intro i j h
  have hvalue := congrArg IStream.decValue h
  rwa [decValue_decimal, decValue_decimal] at hvalue

lemma doubled_isToken {count : ℕ} : ∀ w ∈ doubled count, IsToken w := by
  intro w hw
  simp only [doubled, List.mem_append, or_self, List.mem_map] at hw
  obtain ⟨i, -, rfl⟩ := hw
  exact ⟨decimal_ne_nil i, fun b hb => isSpace_of_isDigit (decimal_isDigit hb)⟩

lemma take_drop_range {count i k : ℕ} (h : i + k ≤ count) :
    (((List.range count).map decimal).drop i).take k = run i k := by
  rw [← List.map_drop, ← List.map_take, run, List.range_eq_range', List.drop_range',
    List.take_range'_of_length_ge (by omega), Nat.zero_add, Nat.mul_one]

/-- A run of words stands in both halves of the text. -/
lemma doubled_take_drop {count i k : ℕ} (h : i + k ≤ count) :
    ((doubled count).drop i).take k = run i k ∧
      ((doubled count).drop (count + i)).take k = run i k := by
  have hlen : ((List.range count).map decimal).length = count := by simp
  constructor
  · rw [doubled, List.drop_append_of_le_length (by omega),
      List.take_append_of_le_length (by rw [List.length_drop]; omega), take_drop_range h]
  · rw [doubled, ← List.drop_drop, List.drop_left' hlen, take_drop_range h]

/-- The n-grams that `build_ngrams` forms at one start. -/
def ngramsAt (tokens : List Word) (i : ℕ) : List (List Word) :=
  ((List.range' 2 4).takeWhile fun size => i + size ≤ tokens.length).map
    fun size => (tokens.drop i).take size

lemma ngramsAt_full {tokens : List Word} {i : ℕ} (h : i + 5 ≤ tokens.length) {k : ℕ} (hk : 2 ≤ k)
    (hk5 : k ≤ 5) : (tokens.drop i).take k ∈ ngramsAt tokens i := by
  refine List.mem_map.mpr ⟨k, ?_, rfl⟩
  have hall : (List.range' 2 4).takeWhile (fun size => i + size ≤ tokens.length) =
      List.range' 2 4 := by
    rw [List.takeWhile_eq_self_iff]
    intro size hsize
    rw [List.mem_range'_1] at hsize
    simpa using (by omega : i + size ≤ tokens.length)
  rw [hall, List.mem_range'_1]
  omega

lemma count_ngramsAt_le (tokens : List Word) (i : ℕ) (p : List Word) :
    (ngramsAt tokens i).count p ≤ 1 := by
  refine List.nodup_iff_count_le_one.mp ?_ p
  have hsub : ((List.range' 2 4).takeWhile fun size => i + size ≤ tokens.length).Sublist
      (List.range' 2 4) := List.takeWhile_sublist _
  have hsizes : (List.range' 2 4).Nodup := List.nodup_range'
  refine (hsizes.sublist hsub).map_on fun a ha b hb heq => ?_
  have hla := List.mem_takeWhile_imp ha
  have hlb := List.mem_takeWhile_imp hb
  simp only [decide_eq_true_eq] at hla hlb
  have hlen := congrArg List.length heq
  rw [List.length_take_of_le (by rw [List.length_drop]; omega),
    List.length_take_of_le (by rw [List.length_drop]; omega)] at hlen
  exact hlen

lemma count_flatMap_ngramsAt_le (tokens p : List Word) (starts : List ℕ) :
    (starts.flatMap (ngramsAt tokens)).count p ≤ starts.length := by
  induction starts with
  | nil => simp
  | cons start starts ih =>
    have hone := count_ngramsAt_le tokens start p
    rw [List.flatMap_cons, List.count_append, List.length_cons]
    omega

lemma buildNgrams_doubled (count : ℕ) : buildNgrams (doubled count) 2 5 =
    (List.range count).flatMap (ngramsAt (doubled count)) ++
      (List.range' count count).flatMap (ngramsAt (doubled count)) := by
  have hlen : (doubled count).length = count + count := by simp [doubled]
  have hsplit := @List.range'_append_1 0 count count
  rw [Nat.zero_add, ← List.range_eq_range', ← List.range_eq_range', ← hlen] at hsplit
  rw [← List.flatMap_append, hsplit]
  rfl

/-- Every run of the first half is counted once in each half. -/
lemma registered_run {count i k : ℕ} (hcount : 2 * count < 2 ^ 32) (hi : i + 5 ≤ count)
    (hk : 2 ≤ k) (hk5 : k ≤ 5) : Registered (doubled count) (run i k) := by
  have hlen : (doubled count).length = count + count := by simp [doubled]
  obtain ⟨hfirst, hsecond⟩ := doubled_take_drop (by omega : i + k ≤ count)
  have hmem : run i k ∈ (List.range count).flatMap (ngramsAt (doubled count)) := by
    refine List.mem_flatMap.mpr ⟨i, List.mem_range.mpr (by omega), ?_⟩
    have hat := ngramsAt_full (by omega : i + 5 ≤ (doubled count).length) hk hk5
    rwa [hfirst] at hat
  have hmem' : run i k ∈ (List.range' count count).flatMap (ngramsAt (doubled count)) := by
    refine List.mem_flatMap.mpr ⟨count + i, List.mem_range'_1.mpr (by omega), ?_⟩
    have hat := ngramsAt_full (by omega : count + i + 5 ≤ (doubled count).length) hk hk5
    rwa [hsecond] at hat
  have htotal : (buildNgrams (doubled count) 2 5).count (run i k) =
      ((List.range count).flatMap (ngramsAt (doubled count))).count (run i k) +
        ((List.range' count count).flatMap (ngramsAt (doubled count))).count (run i k) := by
    rw [buildNgrams_doubled, List.count_append]
  have hpos := List.count_pos_iff.mpr hmem
  have hpos' := List.count_pos_iff.mpr hmem'
  have hbound := count_flatMap_ngramsAt_le (doubled count) (run i k) (List.range count)
  have hbound' := count_flatMap_ngramsAt_le (doubled count) (run i k) (List.range' count count)
  rw [List.length_range] at hbound
  rw [List.length_range'] at hbound'
  refine ⟨?_, Or.inl ?_⟩
  · rw [buildNgrams_doubled]
    exact List.mem_append_left _ hmem
  · rw [Nat.mod_eq_of_lt (by omega)]
    omega

/-- Each start in the first half gives four phrases. -/
lemma card_registered_doubled {count : ℕ} (hcount : 2 * count < 2 ^ 32) :
    4 * (count - 4) ≤ (registeredNgrams (doubled count)).toFinset.card := by
  have hinj : Set.InjOn (fun n : ℕ => run (n / 4) (2 + n % 4)) ↑(Finset.range (4 * (count - 4))) := by
    intro a _ b _ heq
    have hlen := congrArg List.length heq
    have hhead := congrArg List.head? heq
    simp only [run, List.length_map, List.length_range'] at hlen
    simp only [run, Nat.add_comm 2, List.range'_succ, List.map_cons, List.head?_cons,
      Option.some.injEq] at hhead
    have hstart := decimal_injective hhead
    omega
  have hmaps : Set.MapsTo (fun n : ℕ => run (n / 4) (2 + n % 4)) ↑(Finset.range (4 * (count - 4)))
      ↑(registeredNgrams (doubled count)).toFinset := by
    intro n hn
    rw [Finset.coe_range, Set.mem_Iio] at hn
    rw [List.coe_toFinset, Set.mem_ofPred_eq, mem_registeredNgrams]
    exact registered_run hcount (by omega) (by omega) (by omega)
  have hcard := Finset.card_le_card_of_injOn _ hmaps hinj
  rwa [Finset.card_range] at hcard

lemma phraseCount_doubled {count : ℕ} (hcount : 2 * count < 2 ^ 32) :
    4 * (count - 4) ≤ phraseCount (doubled count) :=
  (card_registered_doubled hcount).trans (Nat.le_add_left _ _)

lemma words_doubled {count : ℕ} :
    (minePhrases .same (doubled count) ⟨∅, []⟩).main.decode.length ≤ 2 * count ∧
      ∀ w ∈ (minePhrases .same (doubled count) ⟨∅, []⟩).main.decode, IsToken w := by
  obtain ⟨-, hsize, hmem⟩ :=
    minePhrases_sizes (@doubled_isToken count) Orders.same coherent_empty
  have hsub : phraseWordSet (doubled count) ⊆ (doubled count).toFinset :=
    fun w hw => List.mem_toFinset.mpr (phraseWordSet_subset hw)
  have hlen : (doubled count).length = 2 * count := by
    simp only [doubled, List.length_append, List.length_map, List.length_range]
    omega
  constructor
  · have hcard := (Finset.card_le_card hsub).trans (List.toFinset_card_le (doubled count))
    rw [hlen] at hcard
    rw [hsize]
    simpa using hcard
  · intro w hw
    have hword := (hmem w).mp hw
    exact doubled_isToken w (phraseWordSet_subset (hword.resolve_left (by simp)))

/-- Many phrases of few words are lost. -/
lemma loadDictionaries_doubled (u : Uninit) {count : ℕ} (hcount : 2 * count < 2 ^ 32)
    (hmany : 2 ^ 32 ≤ 4 * (count - 4)) {s : MiningState}
    (hs : s = minePhrases .same (doubled count) ⟨∅, []⟩) :
    s.main.decode.length < 2 ^ 32 ∧ (∀ w ∈ s.main.decode, w ≠ [] ∧ (10 : UInt8) ∉ w) ∧
      s.phraseDecode ≠ [] ∧
      loadDictionaries u (writeDictionaries s.main.decode s.phraseDecode) = ([], []) := by
  subst hs
  obtain ⟨hphrases, -, -⟩ := minePhrases_sizes (@doubled_isToken count) Orders.same coherent_empty
  obtain ⟨hsize, htoken⟩ := @words_doubled count
  have hlong : 2 ^ 32 ≤ (minePhrases .same (doubled count) ⟨∅, []⟩).phraseDecode.length := by
    rw [hphrases]
    exact hmany.trans (phraseCount_doubled hcount)
  refine ⟨hsize.trans_lt hcount, fun w hw => ⟨(htoken w hw).ne_nil, fun hmem => ?_⟩, ?_,
    loadDictionaries_overflow u (hsize.trans_lt hcount) hlong⟩
  · exact absurd ((htoken w hw).solid 10 hmem) (by decide)
  · exact List.ne_nil_of_length_pos (lt_of_lt_of_le (by decide) hlong)

/-- The dictionary and the phrases of the numbers below 2^30 + 4, written twice. -/
def manyPhrases : MiningState := minePhrases .same (doubled (2 ^ 30 + 4)) ⟨∅, []⟩

/-- A text with fewer than 2^32 words and more phrases: nothing comes back of its dictionary. -/
theorem loadDictionaries_lost :
    manyPhrases.main.decode.length < 2 ^ 32 ∧
      (∀ w ∈ manyPhrases.main.decode, w ≠ [] ∧ (10 : UInt8) ∉ w) ∧
      manyPhrases.phraseDecode ≠ [] ∧
      loadDictionaries TokenLoop.zeroUninit
        (writeDictionaries manyPhrases.main.decode manyPhrases.phraseDecode) = ([], []) :=
  loadDictionaries_doubled _ (by norm_num) (by norm_num) manyPhrases.eq_def

end HashCompress.DictionaryFile
