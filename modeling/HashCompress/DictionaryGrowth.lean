import HashCompress.SuccessfulRun
import HashCompress.RoundTrip

/-!
# The word dictionaries while they grow

The passes change the main dictionary only by looking up words one after the other. Every dictionary
on the way, and the local one, has its two directions inverse to each other.
-/
namespace HashCompress.Compressor

open WordText TallyMap KeyTrie CodeTables DictionaryFile PhraseMining PhraseSegment Tokenizer

/-- The dictionary after a sequence of lookups, each of which may append its word. -/
def lookUp (d : MainDict) (words : List Word) : MainDict :=
  words.foldl (fun d w => (d.codeOf w).2) d

/-- The words that the wildcard pass looks up, in order. -/
def wildcardLookups (o : Orders) (tokens : List Word) : List Word :=
  (wildcardAdditions o tokens).flatMap Addition.words

/-- The words that the regular pass looks up, in order. -/
def regularLookups (o : Orders) (tokens : List Word) : List Word :=
  (regularAdditions o tokens).flatMap Addition.words

/-- Every code is in range and stands for its word, and every word has a code. -/
structure Inverse (d : MainDict) : Prop where
  code_lt : ∀ w code, d.encode.lookup w = some code → code.toNat < d.decode.length
  decode_code : ∀ w code, d.encode.lookup w = some code → d.decode[code.toNat]? = some w
  key : ∀ w ∈ d.decode, w ∈ d.encode

/-- Every code that was assigned stays assigned to its word, and all words keep their places. -/
structure Keeps (d d' : MainDict) : Prop where
  encode : ∀ w code, d.encode.lookup w = some code → d'.encode.lookup w = some code
  decode : d.decode <+: d'.decode

lemma inverse_of_coherent {d : MainDict} (h : d.Coherent) (hsize : d.decode.length ≤ 2 ^ 32) :
    Inverse d := by
  refine ⟨fun w code hw => ?_, h.codes hsize, fun w hw => (h.keys w).mpr hw⟩
  exact (List.getElem?_eq_some_iff.mp (h.codes hsize w code hw)).1

/-! ### Lookups -/

lemma lookUp_append (d : MainDict) (words words' : List Word) :
    lookUp d (words ++ words') = lookUp (lookUp d words) words' := List.foldl_append

lemma lookUp_coherent {d : MainDict} (h : d.Coherent) (words : List Word) :
    (lookUp d words).Coherent := by
  induction words generalizing d with
  | nil => exact h
  | cons w words ih => exact ih (codeOf_spec h w).1

lemma Keeps.trans {d d' d'' : MainDict} (h : Keeps d d') (h' : Keeps d' d'') : Keeps d d'' :=
  ⟨fun w code hw => h'.encode w code (h.encode w code hw), h.decode.trans h'.decode⟩

lemma keeps_codeOf (d : MainDict) (w : Word) : Keeps d (d.codeOf w).2 := by
  unfold MainDict.codeOf
  cases hw : d.encode.lookup w with
  | some code => exact ⟨fun v code hv => hv, List.prefix_rfl⟩
  | none =>
    refine ⟨fun v code hv => ?_, List.prefix_append _ _⟩
    have hne : v ≠ w := by
      rintro rfl
      rw [hw] at hv
      cases hv
    exact (AList.lookup_insert_ne hne).trans hv

lemma keeps_lookUp (d : MainDict) (words : List Word) : Keeps d (lookUp d words) := by
  induction words generalizing d with
  | nil => exact ⟨fun v code hv => hv, List.prefix_rfl⟩
  | cons w words ih => exact (keeps_codeOf d w).trans (ih _)

/-! ### The passes as lookups -/

lemma codesOf_eq_lookUp (skip : Word → Bool) (d : MainDict) (words : List Word) :
    (codesOf skip d words).2 = lookUp d (words.filter fun w => !skip w) := by
  induction words generalizing d with
  | nil => rfl
  | cons w words ih =>
    unfold codesOf
    cases hskip : skip w with
    | true =>
      rw [List.filter_cons_of_neg (by simp [hskip])]
      exact ih d
    | false =>
      rw [List.filter_cons_of_pos (by simp [hskip])]
      exact ih (d.codeOf w).2

lemma recordWildcards_eq_lookUp (d : MainDict) (codes : AList fun _ : UInt32 => UInt32)
    (words : List (Sigma fun _ : Word => UInt32)) :
    (recordWildcards d codes words).2 = lookUp d (words.map fun entry => entry.1) := by
  induction words generalizing d codes with
  | nil => rfl
  | cons entry words ih =>
    unfold recordWildcards
    exact ih _ _

lemma addWildcardPhrase_main (s : MiningState) (pattern : List UInt8) (wildcardPos : ℕ)
    (words : List (Sigma fun _ : Word => UInt32)) (totalOccurrences : UInt32) :
    (addWildcardPhrase s pattern wildcardPos words totalOccurrences).main =
      lookUp s.main ((splitWords pattern).filter (· != star) ++ words.map fun entry => entry.1) := by
  rw [lookUp_append]
  refine (recordWildcards_eq_lookUp _ _ _).trans ?_
  rw [codesOf_eq_lookUp]
  rfl

lemma addRegularPhrase_main (s : MiningState) (ngram : List UInt8) (frequency : UInt32) :
    (addRegularPhrase s ngram frequency).main = lookUp s.main (splitWords ngram) := by
  refine (codesOf_eq_lookUp _ _ _).trans ?_
  simp

lemma findWildcardPhrases_main (o : Orders) (tokens : List Word) (s : MiningState) :
    (findWildcardPhrases o tokens s).main = lookUp s.main (wildcardLookups o tokens) := by
  refine @findWildcardPhrases_induct _
    (fun ms s' => s'.main = lookUp s.main (ms.flatMap Addition.words)) Job.addition o tokens ?_ s rfl
  intro j _ ms s' hs'
  rw [addWildcardPhrase_main, hs', ← lookUp_append, List.flatMap_append, List.flatMap_singleton]
  rfl

lemma findRegularPhrases_main (o : Orders) (tokens : List Word) (s : MiningState) :
    (findRegularPhrases o tokens s).main = lookUp s.main (regularLookups o tokens) := by
  refine @findRegularPhrases_induct _
    (fun ms s' => s'.main = lookUp s.main (ms.flatMap Addition.words)) ngramAddition o tokens ?_ [] s
    rfl
  intro e _ ms s' hs'
  rw [addRegularPhrase_main, hs', ← lookUp_append, List.flatMap_append, List.flatMap_singleton]
  rfl

/-! ### The local dictionary -/

lemma appendNew_concat {α : Type*} [DecidableEq α] (l xs : List α) (x : α) :
    appendNew l (xs ++ [x]) =
      if x ∈ appendNew l xs then appendNew l xs else appendNew l xs ++ [x] := appendNew_append l xs [x]

/-- The elements stand in the order of their first occurrence. -/
lemma appendNew_nil_pairwise {α : Type*} [DecidableEq α] [BEq α] [LawfulBEq α] (xs : List α) :
    (appendNew [] xs).Pairwise fun a b => xs.idxOf a < xs.idxOf b := by
  induction xs using List.reverseRecOn with
  | nil => exact List.Pairwise.nil
  | append_singleton xs x ih =>
    have hmem : ∀ a, a ∈ appendNew [] xs → a ∈ xs := by
      intro a ha
      simpa using mem_appendNew.mp ha
    have hkeep : (appendNew [] xs).Pairwise fun a b => (xs ++ [x]).idxOf a < (xs ++ [x]).idxOf b := by
      refine ih.imp_of_mem fun {a b} ha hb hab => ?_
      rwa [List.idxOf_append_of_mem (hmem a ha), List.idxOf_append_of_mem (hmem b hb)]
    rw [appendNew_concat]
    split_ifs with hx
    · exact hkeep
    · refine List.pairwise_append.mpr ⟨hkeep, List.pairwise_singleton _ _, fun a ha b hb => ?_⟩
      rw [List.mem_singleton] at hb
      subst hb
      have hnew : b ∉ xs := fun hb => hx (mem_appendNew.mpr (Or.inr hb))
      rw [List.idxOf_append_of_mem (hmem a ha), List.idxOf_append_of_notMem hnew]
      have hlt := List.idxOf_lt_length_of_mem (hmem a ha)
      omega

/-- For every word list, text, order and object: after the main dictionary is built and after each
lookup of the two passes it is inverse, no lookup changes an assigned code, and the local dictionary
of any rare words is inverse and lists them in the order of their first occurrence. -/
theorem wordDictionaries_inverse (ch : Choices) (files : CompressFiles) (text : List UInt8)
    (c : TwoTierTextCompressor)
    (hsize : (learn ch (tokenizeRaw text) (wordsFor ch files text)
      (resetFor (tokenizeRaw text) c)).mainDecode.length ≤ 2 ^ 32) :
    let words := wordsFor ch files text
    let built : MainDict := ⟨buildEncode words, words⟩
    let learned := learn ch (tokenizeRaw text) words (resetFor (tokenizeRaw text) c)
    let lookups := wildcardLookups ch.orders (tokenizeRaw text) ++
      regularLookups ch.orders (tokenizeRaw text)
    (⟨learned.mainEncode, learned.mainDecode⟩ : MainDict) = lookUp built lookups ∧
      (∀ n, Inverse (lookUp built (lookups.take n))) ∧
      (∀ n k, Keeps (lookUp built (lookups.take n)) (lookUp built (lookups.take (n + k)))) ∧
      ∀ rare : List Word,
        let c' := buildLocalDictionary rare learned
        c'.localDecode.Nodup ∧ (∀ w, w ∈ c'.localDecode ↔ w ∈ rare) ∧
          (c'.localDecode.Pairwise fun v w => rare.idxOf v < rare.idxOf w) ∧
          (c'.localDecode.length ≤ 2 ^ 32 → Inverse ⟨c'.localEncode, c'.localDecode⟩) := by
  intro words built learned lookups
  have hlearned : (⟨learned.mainEncode, learned.mainDecode⟩ : MainDict) = lookUp built lookups := by
    refine (findRegularPhrases_main ch.orders (tokenizeRaw text) _).trans ?_
    rw [findWildcardPhrases_main, ← lookUp_append]
  have hgrow : ∀ n k, Keeps (lookUp built (lookups.take n)) (lookUp built (lookups.take (n + k))) := by
    intro n k
    rw [List.take_add, lookUp_append]
    exact keeps_lookUp _ _
  refine ⟨hlearned, fun n => ?_, hgrow, fun rare => ?_⟩
  · apply inverse_of_coherent (lookUp_coherent (buildEncode_coherent words) _)
    have hall := (keeps_lookUp (lookUp built (lookups.take n)) (lookups.drop n)).decode.length_le
    rw [← lookUp_append, List.take_append_drop, ← hlearned] at hall
    exact hall.trans hsize
  · intro c'
    have horder : c'.localDecode.Pairwise fun v w => rare.idxOf v < rare.idxOf w :=
      appendNew_nil_pairwise rare
    refine ⟨horder.imp fun hlt heq => ?_, fun w => ?_, horder, fun hlocal => ?_⟩
    · rw [heq] at hlt
      exact lt_irrefl _ hlt
    · exact mem_appendNew.trans (by simp)
    · exact inverse_of_coherent (buildEncode_coherent c'.localDecode) hlocal

/-- A word list with `A` and `a`, and the text `a c a c`. -/
def duplicateFiles : CompressFiles where
  dictionary := some [65, 10, 97, 10, 98, 10]
  input := some [97, 32, 99, 32, 97, 32, 99]

theorem wordDictionaries_inverse_duplicates :
    wordsFor stableChoices duplicateFiles [97, 32, 99, 32, 97, 32, 99] = [[97], [97], [98]] ∧
      Inverse ⟨buildEncode (wordsFor stableChoices duplicateFiles [97, 32, 99, 32, 97, 32, 99]),
        wordsFor stableChoices duplicateFiles [97, 32, 99, 32, 97, 32, 99]⟩ :=
  ⟨by decide +kernel, (wordDictionaries_inverse stableChoices duplicateFiles
    [97, 32, 99, 32, 97, 32, 99] {} (by decide +kernel)).2.1 0⟩

end HashCompress.Compressor
