import HashCompress.DictionaryGrowth
import HashCompress.CodeWidths

/-!
# The order of the main codes

The word list is sorted by frequency before the codes are given out, and the words of the phrases
get theirs afterwards.
-/
namespace HashCompress.Compressor

open WordText TallyMap KeyTrie CodeTables DictionaryFile PhraseMining Tokenizer

/-- How often a word counts when the list is sorted: a word that is not in the text counts once. -/
def sortFrequency (tokens : List Word) (w : Word) : ℕ := max 1 (tokens.count w)

lemma lookup_tally_getD {tokens : List Word} (hsize : tokens.length < 2 ^ 32) (w : Word) :
    (((tally tokens).lookup w).getD 1).toNat = sortFrequency tokens w := by
  have hle : tokens.count w ≤ tokens.length := List.count_le_length
  cases hlookup : (tally tokens).lookup w with
  | none =>
    have hnot : w ∉ tokens := by
      rw [← mem_tally, ← AList.lookup_eq_none]
      exact hlookup
    rw [sortFrequency, List.count_eq_zero_of_not_mem hnot]
    rfl
  | some v =>
    obtain ⟨hmem, hv⟩ := mem_entries_tally.mp (AList.mem_lookup_iff.mp hlookup)
    have hpos : 0 < tokens.count w := List.count_pos_iff.mpr hmem
    have hcount : (tokens.countP fun x => x = w) = tokens.count w :=
      List.countP_congr fun x _ => by simp
    rw [Option.getD_some, hv, hcount, UInt32.toNat_ofNat', Nat.mod_eq_of_lt (by omega), sortFrequency]
    omega

lemma mainWords_pairwise (sort : SortOrder (Word × UInt32) fun a b => a.2 > b.2)
    {tokens : List Word} (hsize : tokens.length < 2 ^ 32) (dictWords : List Word) :
    (mainWords sort (tally tokens) dictWords).Pairwise fun a b =>
      sortFrequency tokens b ≤ sortFrequency tokens a := by
  set pairs := dictWords.map fun word => (word, ((tally tokens).lookup word).getD 1) with hpairs
  have hfreq : ∀ pair ∈ sort.run pairs, pair.2.toNat = sortFrequency tokens pair.1 := by
    intro pair hpair
    obtain ⟨word, -, rfl⟩ := List.mem_map.mp ((sort.perm pairs).mem_iff.mp hpair)
    exact lookup_tally_getD hsize word
  rw [mainWords, List.pairwise_map]
  refine (sort.sorted pairs).imp_of_mem fun {a b} ha hb hab => ?_
  rw [← hfreq a ha, ← hfreq b hb]
  exact UInt32.le_iff_toNat_le.mp (UInt32.not_lt.mp hab)

lemma index_lt_of_frequency {tokens words : List Word}
    (hsorted : words.Pairwise fun a b => sortFrequency tokens b ≤ sortFrequency tokens a)
    {i j : ℕ} {w w' : Word} (hi : words[i]? = some w) (hj : words[j]? = some w')
    (hlt : sortFrequency tokens w' < sortFrequency tokens w) : i < j := by
  obtain ⟨hi', hw⟩ := List.getElem?_eq_some_iff.mp hi
  obtain ⟨hj', hw'⟩ := List.getElem?_eq_some_iff.mp hj
  by_contra hle
  rcases Nat.lt_or_eq_of_le (Nat.le_of_not_lt hle) with hji | hji
  · have hpair := List.pairwise_iff_getElem.mp hsorted j i hj' hi' hji
    rw [hw, hw'] at hpair
    omega
  · subst hji
    rw [hw] at hw'
    rw [hw'] at hlt
    exact lt_irrefl _ hlt

lemma minePhrases_main (o : Orders) (tokens : List Word) (main : MainDict) :
    (minePhrases o tokens main).main =
      lookUp main (wildcardLookups o tokens ++ regularLookups o tokens) := by
  rw [minePhrases, findRegularPhrases_main, findWildcardPhrases_main, ← lookUp_append]

/-- The main dictionary of a run that returned true, whatever the object was before. -/
lemma compress_main {ch : Choices} {files : CompressFiles} {c : TwoTierTextCompressor}
    (h : (compress ch files c).status = .success) :
    ∃ text, files.input = some text ∧ (wordsFor ch files text).length < 2 ^ 32 ∧
      let words := wordsFor ch files text
      (⟨(compress ch files c).object.mainEncode, (compress ch files c).object.mainDecode⟩ : MainDict) =
        (minePhrases ch.orders (tokenizeRaw text) ⟨buildEncode words, words⟩).main := by
  obtain ⟨text, hinput, hmain, hfinish⟩ := compress_eq_finish h
  refine ⟨text, hinput, hmain, ?_⟩
  rw [hfinish] at h ⊢
  obtain ⟨hstats, hlocal⟩ := finish_success h
  rw [finish_eq_writeFiles hstats hlocal] at h ⊢
  obtain ⟨bw, -, hrun⟩ := writeFiles_success h
  rw [hrun]
  rfl

/-- The highest frequency gets the smallest code. After every successful run, on a fresh or on a used
object, with duplicates in the word list or not and whatever order the sort gives equal
frequencies: of two words of the list the one that occurs more often has the smaller code, where a
word that is absent from the text counts as occurring once, and a word that only the phrases brought
in has a larger code than every word of the list. -/
theorem compress_code_lt (ch : Choices) (files : CompressFiles) (c : TwoTierTextCompressor)
    (hsuccess : (compress ch files c).status = .success) (hsize : files.rawTokens.length < 2 ^ 32)
    (hmain : knownWords (loadDictionaryWords files.dictionary) files.rawTokens ≤ 2 ^ 32)
    {w w' : Word} {code code' : UInt32} (hw : w ∈ loadDictionaryWords files.dictionary)
    (hcode : (compress ch files c).object.mainEncode.lookup w = some code)
    (hcode' : (compress ch files c).object.mainEncode.lookup w' = some code')
    (horder : w' ∈ loadDictionaryWords files.dictionary →
      sortFrequency files.rawTokens w' < sortFrequency files.rawTokens w) : code < code' := by
  obtain ⟨text, hinput, hlen, hobject⟩ := compress_main hsuccess
  have hraw : files.rawTokens = tokenizeRaw text := by rw [CompressFiles.rawTokens, hinput]; rfl
  rw [hraw] at hsize hmain horder
  have hperm := mainWords_perm ch.sortWords (tally (tokenizeRaw text))
    (loadDictionaryWords files.dictionary)
  have hsorted := mainWords_pairwise ch.sortWords hsize (loadDictionaryWords files.dictionary)
  change (wordsFor ch files text).Perm _ at hperm
  change (wordsFor ch files text).Pairwise _ at hsorted
  generalize wordsFor ch files text = words at hlen hobject hperm hsorted
  have hbuilt := buildEncode_coherent words
  have hkeeps := keeps_lookUp ⟨buildEncode words, words⟩
    (wildcardLookups ch.orders (tokenizeRaw text) ++ regularLookups ch.orders (tokenizeRaw text))
  rw [← minePhrases_main, ← hobject] at hkeeps
  have htok : ∀ v ∈ tokenizeRaw text, IsToken v := rawTokens_isToken
  have hcoherent := (mined_minePhrases htok hbuilt ch.orders).coherent
  have hfinal := (minePhrases_sizes htok ch.orders hbuilt).2.1
  rw [← hobject] at hcoherent hfinal
  rw [← knownWords_perm hperm] at hmain
  -- a word of the list keeps the place and the code that it got when the dictionary was built
  have hlist : ∀ {v : Word} {code : UInt32}, v ∈ loadDictionaryWords files.dictionary →
      (compress ch files c).object.mainEncode.lookup v = some code → words[code.toNat]? = some v := by
    intro v code hv hlookup
    obtain ⟨code₀, hcode₀⟩ := Option.isSome_iff_exists.mp
      (AList.lookup_isSome.mpr ((hbuilt.keys v).mpr (hperm.mem_iff.mpr hv)))
    have hsame := (hkeeps.encode v code₀ hcode₀).symm.trans hlookup
    rw [← Option.some.inj hsame]
    exact hbuilt.codes hlen.le v code₀ hcode₀
  have hfront := hlist hw hcode
  rw [UInt32.lt_iff_toNat_lt]
  by_cases hw' : w' ∈ loadDictionaryWords files.dictionary
  · exact index_lt_of_frequency hsorted hfront (hlist hw' hcode') (horder hw')
  · have hbehind := hcoherent.codes (hfinal.trans_le hmain) w' code' hcode'
    have hcodelt := (List.getElem?_eq_some_iff.mp hfront).1
    by_contra hle
    obtain ⟨tail, htail⟩ := hkeeps.decode
    dsimp only at htail hbehind
    rw [← htail, List.getElem?_append_left (by omega)] at hbehind
    exact hw' (hperm.mem_iff.mp (List.mem_of_getElem? hbehind))

def twiceFiles : CompressFiles where
  dictionary := some [97, 10, 98, 10]
  input := some [98, 32, 98, 32, 97]

theorem compress_code_lt_twice : ∃ code code',
    (compress stableChoices twiceFiles {}).object.mainEncode.lookup [98] = some code ∧
      (compress stableChoices twiceFiles {}).object.mainEncode.lookup [97] = some code' ∧
        code < code' := by
  have hb : (compress stableChoices twiceFiles {}).object.mainEncode.lookup [98] = some 0 := by
    decide +kernel
  have ha : (compress stableChoices twiceFiles {}).object.mainEncode.lookup [97] = some 1 := by
    decide +kernel
  exact ⟨0, 1, hb, ha, compress_code_lt stableChoices twiceFiles {} (by decide +kernel)
    (by decide +kernel) (by decide +kernel) (by decide +kernel) hb ha fun _ => by decide +kernel⟩

end HashCompress.Compressor
