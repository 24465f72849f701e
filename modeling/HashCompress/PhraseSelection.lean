import HashCompress.MinedPhrases

/-!
# Which phrases are mined

The counters of the two passes are 32-bit, so a pattern or n-gram is selected by its number of
occurrences modulo 2^32. The selection does not depend on the order of traversal.
-/
namespace HashCompress.PhraseMining

open WordText TallyMap KeyTrie CodeTables

section Selection

variable (tokens : List Word)

/-- How often a pattern with its wildcard position occurs. -/
def patternCount (o : Occurrence) : ℕ :=
  ((wildcardOccurrences tokens).filter fun o' => o'.pos = o.pos ∧ o'.pattern = o.pattern).length

def Selected (o : Occurrence) : Prop := 2 ≤ patternCount tokens o % 2 ^ 32

instance : DecidablePred (Selected tokens) := fun o =>
  inferInstanceAs (Decidable (2 ≤ patternCount tokens o % 2 ^ 32))

/-- The words of a frequent wildcard pattern, the wildcard left out. -/
def Starred (p : List Word) : Prop :=
  ∃ o ∈ wildcardOccurrences tokens, Selected tokens o ∧ o.pattern.filter (· != star) = p

/-- An n-gram of the text that is frequent, or single in a text with few n-grams. -/
def Registered (p : List Word) : Prop :=
  p ∈ buildNgrams tokens 2 5 ∧
    (2 ≤ (buildNgrams tokens 2 5).count p % 2 ^ 32 ∨
      ((buildNgrams tokens 2 5).count p % 2 ^ 32 = 1 ∧
        (buildNgrams tokens 2 5).toFinset.card < 1000))

instance : DecidablePred (Registered tokens) := fun _ =>
  inferInstanceAs (Decidable (_ ∧ _))

instance : DecidablePred (Starred tokens) := fun p =>
  inferInstanceAs (Decidable (∃ o ∈ wildcardOccurrences tokens,
    Selected tokens o ∧ o.pattern.filter (· != star) = p))

def selectedOccurrences : List Occurrence :=
  (wildcardOccurrences tokens).filter fun o => Selected tokens o

def registeredNgrams : List (List Word) :=
  (buildNgrams tokens 2 5).filter fun p => Registered tokens p

/-- The number of phrases that the text yields. -/
def phraseCount : ℕ :=
  ((selectedOccurrences tokens).map fun o => (o.pos, o.pattern)).toFinset.card +
    (registeredNgrams tokens).toFinset.card

/-- The words that these phrases make known. -/
def phraseWordSet : Finset Word :=
  ((selectedOccurrences tokens).flatMap fun o =>
    o.word :: o.pattern.filter (· != star)).toFinset ∪
      ((registeredNgrams tokens).flatMap id).toFinset

variable {tokens}

lemma mem_selectedOccurrences {o : Occurrence} :
    o ∈ selectedOccurrences tokens ↔ o ∈ wildcardOccurrences tokens ∧ Selected tokens o := by
  simp [selectedOccurrences]

lemma mem_registeredNgrams {p : List Word} :
    p ∈ registeredNgrams tokens ↔ Registered tokens p := by
  simp only [registeredNgrams, List.mem_filter, decide_eq_true_eq, and_iff_right_iff_imp]
  exact fun h => h.1

end Selection

/-! ### The entries of the pattern map -/

def keyedOccurrences (tokens : List Word) : List (List UInt8 × ℕ × Word) :=
  (wildcardOccurrences tokens).map fun o => (joinWords o.pattern, o.pos, o.word)

/-- The wildcard words met at a position of a pattern, in order. -/
def slotWords (tokens : List Word) (pattern : List UInt8) (pos : ℕ) : List Word :=
  valuesAt pos (valuesAt pattern (keyedOccurrences tokens))

lemma wildcardPatterns_eq_collect (tokens : List Word) :
    wildcardPatterns tokens = collect ∅ (fun (byPos : PosMap) (x : ℕ × Word) =>
      upsert byPos x.1 ∅ fun words => upsert words x.2 0 (· + 1)) (keyedOccurrences tokens) := by
  rw [wildcardPatterns, collect, keyedOccurrences, List.foldl_map]

lemma mem_entries_wildcardPatterns {tokens : List Word} {pattern : List UInt8} {byPos : PosMap} :
    (⟨pattern, byPos⟩ : Sigma fun _ : List UInt8 => PosMap) ∈ (wildcardPatterns tokens).entries ↔
      valuesAt pattern (keyedOccurrences tokens) ≠ [] ∧
        byPos = collect ∅ (fun (words : WordMap) w => upsert words w 0 (· + 1))
          (valuesAt pattern (keyedOccurrences tokens)) := by
  rw [wildcardPatterns_eq_collect, mem_entries_collect]
  rfl

structure Job where
  pattern : List UInt8
  pos : ℕ
  words : List (Sigma fun _ : Word => UInt32)

/-- The calls of `analyzePattern` that the wildcard pass makes, in order. -/
def jobs (o : Orders) (tokens : List Word) : List Job :=
  (o.patterns.run (wildcardPatterns tokens).entries).flatMap fun patternEntry =>
    ((o.positions patternEntry.1).run patternEntry.2.entries).map fun posEntry =>
      ⟨patternEntry.1, posEntry.1,
        (o.words patternEntry.1 posEntry.1).run posEntry.2.entries⟩

lemma findWildcardPhrases_eq_foldl (o : Orders) (tokens : List Word) (s : MiningState) :
    findWildcardPhrases o tokens s =
      (jobs o tokens).foldl (fun s j => analyzePattern s j.pattern j.pos j.words) s := by
  unfold findWildcardPhrases jobs
  rw [List.foldl_flatMap]
  simp only [List.foldl_map]

lemma mem_jobs {o : Orders} {tokens : List Word} {j : Job} (h : j ∈ jobs o tokens) :
    slotWords tokens j.pattern j.pos ≠ [] ∧
      j.words.Perm (tally (slotWords tokens j.pattern j.pos)).entries := by
  unfold jobs at h
  obtain ⟨⟨pattern, byPos⟩, hp, hj⟩ := List.mem_flatMap.mp h
  obtain ⟨⟨pos, words⟩, hq, rfl⟩ := List.mem_map.mp hj
  have hp' := mem_entries_wildcardPatterns.mp ((o.patterns.perm _).mem_iff.mp hp)
  have hq' := ((o.positions pattern).perm _).mem_iff.mp hq
  rw [hp'.2, mem_entries_collect] at hq'
  refine ⟨hq'.1, ((o.words pattern pos).perm _).trans ?_⟩
  rw [hq'.2]
  exact List.Perm.refl _

lemma exists_job {o : Orders} {tokens : List Word} {pattern : List UInt8} {pos : ℕ}
    (h : slotWords tokens pattern pos ≠ []) :
    ∃ j ∈ jobs o tokens, j.pattern = pattern ∧ j.pos = pos := by
  have hp : valuesAt pattern (keyedOccurrences tokens) ≠ [] := by
    intro hnil
    rw [slotWords, hnil] at h
    exact h rfl
  have hentry := mem_entries_wildcardPatterns.mpr ⟨hp, rfl⟩
  have hpos : (⟨pos, tally (slotWords tokens pattern pos)⟩ : Sigma fun _ : ℕ => WordMap) ∈
      (collect ∅ (fun (words : WordMap) w => upsert words w 0 (· + 1))
        (valuesAt pattern (keyedOccurrences tokens))).entries :=
    mem_entries_collect.mpr ⟨h, rfl⟩
  refine ⟨⟨pattern, pos, (o.words pattern pos).run (tally (slotWords tokens pattern pos)).entries⟩,
    ?_, rfl, rfl⟩
  unfold jobs
  refine List.mem_flatMap.mpr ⟨_, (o.patterns.perm _).mem_iff.mpr hentry, ?_⟩
  exact List.mem_map.mpr ⟨_, ((o.positions pattern).perm _).mem_iff.mpr hpos, rfl⟩

lemma nodup_keys_run {κ ν : Type} (m : AList fun _ : κ => ν)
    (order : IterOrder (Sigma fun _ : κ => ν)) :
    ((order.run m.entries).map Sigma.fst).Nodup :=
  ((order.perm m.entries).map Sigma.fst).nodup_iff.mpr m.keys_nodup

lemma jobs_keys_nodup (o : Orders) (tokens : List Word) :
    ((jobs o tokens).map fun j => (j.pattern, j.pos)).Nodup := by
  unfold jobs
  rw [List.map_flatMap, List.nodup_flatMap]
  constructor
  · rintro ⟨pattern, byPos⟩ -
    have hkeys := nodup_keys_run byPos (o.positions pattern)
    rw [List.map_map]
    refine List.Nodup.of_map Prod.snd ?_
    rw [List.map_map]
    exact hkeys
  · have hkeys := nodup_keys_run (wildcardPatterns tokens) o.patterns
    rw [List.Nodup, List.pairwise_map] at hkeys
    refine hkeys.imp fun {a b} hne => ?_
    simp only [Function.onFun, List.map_map]
    intro x hx hy
    obtain ⟨e, -, rfl⟩ := List.mem_map.mp hx
    obtain ⟨e', -, heq⟩ := List.mem_map.mp hy
    exact hne (congrArg Prod.fst heq).symm

/-! ### Occurrences in a text -/

section Tokens

variable {tokens : List Word} (htok : ∀ w ∈ tokens, IsToken w)

lemma length_window {start n : ℕ} (h : start < tokens.length + 1 - n) :
    ((tokens.drop start).take n).length = n := by
  rw [List.length_take, List.length_drop]
  omega

lemma mem_wildcardOccurrences_iff {o : Occurrence} :
    o ∈ wildcardOccurrences tokens ↔ ∃ phraseLen start, 2 ≤ phraseLen ∧ phraseLen ≤ 5 ∧
      start + phraseLen ≤ tokens.length ∧ o.pos < phraseLen ∧
      o.window = (tokens.drop start).take phraseLen := by
  unfold wildcardOccurrences
  simp only [List.mem_flatMap, List.mem_map, List.mem_range, List.mem_range'_1]
  constructor
  · rintro ⟨phraseLen, hlen, start, hstart, pos, hpos, rfl⟩
    exact ⟨phraseLen, start, by omega, by omega, by omega, hpos, rfl⟩
  · rintro ⟨phraseLen, start, h2, h5, hfit, hpos, hwindow⟩
    exact ⟨phraseLen, by omega, start, by omega, o.pos, hpos, by rw [← hwindow]⟩

lemma mem_wildcardOccurrences {o : Occurrence} (h : o ∈ wildcardOccurrences tokens) :
    o.pos < o.window.length ∧ ∀ w ∈ o.window, w ∈ tokens := by
  obtain ⟨phraseLen, start, -, -, hfit, hpos, hwindow⟩ := mem_wildcardOccurrences_iff.mp h
  rw [hwindow, length_window (by omega)]
  exact ⟨hpos, fun w hw => List.mem_of_mem_drop (List.mem_of_mem_take hw)⟩

/-- The pattern has the length of its window. -/
lemma pattern_bounds {o : Occurrence} (h : o ∈ wildcardOccurrences tokens) :
    2 ≤ o.pattern.length ∧ o.pattern.length ≤ 5 ∧ o.pos < o.pattern.length := by
  obtain ⟨phraseLen, start, h2, h5, hfit, hpos, hwindow⟩ := mem_wildcardOccurrences_iff.mp h
  rw [Occurrence.pattern, List.length_set, hwindow, length_window (by omega)]
  exact ⟨h2, h5, hpos⟩

lemma star_mem_pattern {o : Occurrence} (h : o ∈ wildcardOccurrences tokens) : star ∈ o.pattern :=
  List.mem_set (mem_wildcardOccurrences h).1 star

lemma word_mem_tokens {o : Occurrence} (h : o ∈ wildcardOccurrences tokens) : o.word ∈ tokens := by
  obtain ⟨hpos, hmem⟩ := mem_wildcardOccurrences h
  unfold Occurrence.word
  rw [List.getD_eq_getElem _ _ hpos]
  exact hmem _ (List.getElem_mem hpos)

/-- An n-gram is a piece of the text, of two to five words. -/
lemma ngram_spec {p : List Word} (h : p ∈ buildNgrams tokens 2 5) :
    2 ≤ p.length ∧ p.length ≤ 5 ∧ p <:+: tokens := by
  unfold buildNgrams at h
  simp only [List.mem_flatMap, List.mem_map] at h
  obtain ⟨i, -, size, hsize, rfl⟩ := h
  have hfit := List.mem_takeWhile_imp hsize
  have hrange := (List.takeWhile_sublist _).subset hsize
  rw [List.mem_range'_1] at hrange
  rw [decide_eq_true_eq] at hfit
  have hlen : ((tokens.drop i).take size).length = size := length_window (by omega)
  exact ⟨by omega, by omega, (List.take_prefix _ _).isInfix.trans (List.drop_suffix i tokens).isInfix⟩

lemma mem_buildNgrams {p : List Word} (h : p ∈ buildNgrams tokens 2 5) : ∀ w ∈ p, w ∈ tokens :=
  fun _ hw => (ngram_spec h).2.2.subset hw

lemma star_isToken : IsToken star := ⟨by decide, by simp [star, InputStream.isSpace]⟩

include htok

lemma pattern_isToken {o : Occurrence} (h : o ∈ wildcardOccurrences tokens) :
    ∀ w ∈ o.pattern, IsToken w := by
  intro w hw
  rcases List.mem_or_eq_of_mem_set hw with hw | rfl
  · exact htok w ((mem_wildcardOccurrences h).2 w hw)
  · exact star_isToken

lemma ngram_isToken {p : List Word} (h : p ∈ buildNgrams tokens 2 5) : ∀ w ∈ p, IsToken w :=
  fun w hw => htok w (mem_buildNgrams h w hw)

lemma splitWords_pattern {o : Occurrence} (h : o ∈ wildcardOccurrences tokens) :
    splitWords (joinWords o.pattern) = o.pattern :=
  splitWords_joinWords (pattern_isToken htok h)

lemma joinWords_pattern_inj {o o' : Occurrence} (h : o ∈ wildcardOccurrences tokens)
    (h' : o' ∈ wildcardOccurrences tokens) :
    joinWords o'.pattern = joinWords o.pattern ↔ o'.pattern = o.pattern :=
  ⟨fun heq => joinWords_injOn (pattern_isToken htok h') (pattern_isToken htok h) heq,
    fun heq => by rw [heq]⟩

/-- The wildcard words of a pattern are those of its occurrences. -/
lemma slotWords_eq {o : Occurrence} (h : o ∈ wildcardOccurrences tokens) :
    slotWords tokens (joinWords o.pattern) o.pos =
      ((wildcardOccurrences tokens).filter
        fun o' => o'.pos = o.pos ∧ o'.pattern = o.pattern).map Occurrence.word := by
  unfold slotWords valuesAt keyedOccurrences
  simp only [List.filter_map, List.map_map, List.filter_filter, Function.comp_def]
  congr 1
  refine List.filter_congr fun o' ho' => ?_
  simp [joinWords_pattern_inj htok h ho']

omit htok in
/-- Every job comes from an occurrence. -/
lemma exists_occurrence {order : Orders} {j : Job} (hj : j ∈ jobs order tokens) :
    ∃ o ∈ wildcardOccurrences tokens, j.pattern = joinWords o.pattern ∧ j.pos = o.pos := by
  have hne := (mem_jobs hj).1
  obtain ⟨w, hw⟩ := List.exists_mem_of_ne_nil _ hne
  unfold slotWords valuesAt keyedOccurrences at hw
  simp only [List.mem_map, List.mem_filter, decide_eq_true_eq] at hw
  obtain ⟨x, ⟨⟨y, ⟨⟨o, ho, rfl⟩, hkey⟩, rfl⟩, hpos⟩, -⟩ := hw
  exact ⟨o, ho, hkey.symm, hpos.symm⟩

lemma star_mem_job {order : Orders} {j : Job} (hj : j ∈ jobs order tokens) :
    star ∈ splitWords j.pattern := by
  obtain ⟨occ, hocc, hkey, -⟩ := exists_occurrence hj
  rw [hkey, splitWords_pattern htok hocc]
  exact star_mem_pattern hocc

lemma total_eq {order : Orders} {j : Job} (hj : j ∈ jobs order tokens) {o : Occurrence}
    (ho : o ∈ wildcardOccurrences tokens) (hkey : j.pattern = joinWords o.pattern)
    (hpos : j.pos = o.pos) :
    j.words.foldl (fun total entry => total + entry.2) 0 =
      UInt32.ofNat (patternCount tokens o) := by
  obtain ⟨-, hperm⟩ := mem_jobs hj
  have hsum : j.words.foldl (fun total entry => total + entry.2) 0 =
      (j.words.map fun entry => entry.2).sum := by
    rw [← List.foldl_map, List.sum_eq_foldl]
  rw [hsum, (hperm.map _).sum_eq, sum_tally, hkey, hpos, slotWords_eq htok ho, List.length_map]
  rfl

end Tokens

lemma ofNat_eq_one_iff (n : ℕ) : UInt32.ofNat n = 1 ↔ n % 2 ^ 32 = 1 := by
  rw [← UInt32.toNat_inj, UInt32.toNat_ofNat']
  rfl

lemma le_ofNat_iff (n : ℕ) : minPhraseFreq ≤ UInt32.ofNat n ↔ 2 ≤ n % 2 ^ 32 := by
  rw [UInt32.le_iff_toNat_le, UInt32.toNat_ofNat']
  rfl

/-! ### The additions of the two passes -/

def Job.total (j : Job) : UInt32 := j.words.foldl (fun total entry => total + entry.2) 0

def Job.addition (j : Job) : Addition :=
  ⟨(splitWords j.pattern).filter (· != star) ++ j.words.map (fun entry => entry.1),
    (splitWords j.pattern).filter (· != star), true⟩

def wildcardAdditions (o : Orders) (tokens : List Word) : List Addition :=
  ((jobs o tokens).filter fun j => minPhraseFreq ≤ j.total).map Job.addition

def ngramAddition (e : Sigma fun _ : List UInt8 => UInt32) : Addition :=
  ⟨splitWords e.1, splitWords e.1, false⟩

def regularAdditions (o : Orders) (tokens : List Word) : List Addition :=
  ((o.ngrams.run (ngramFreqs tokens).entries).filter fun e =>
    minPhraseFreq ≤ e.2 ∨ (e.2 = 1 ∧ (ngramFreqs tokens).entries.length < 1000)).map ngramAddition

/-- What every addition of the wildcard pass preserves holds after the pass. -/
theorem findWildcardPhrases_induct {β : Type*} {P : List β → MiningState → Prop} (mk : Job → β)
    {o : Orders} {tokens : List Word}
    (hstep : ∀ j ∈ jobs o tokens, ∀ ms s, P ms s →
      P (ms ++ [mk j]) (addWildcardPhrase s j.pattern j.pos j.words j.total))
    {s : MiningState} (h : P [] s) :
    P (((jobs o tokens).filter fun j => minPhraseFreq ≤ j.total).map mk)
      (findWildcardPhrases o tokens s) := by
  rw [findWildcardPhrases_eq_foldl]
  exact foldl_selected mk hstep h

/-- What every addition of the regular pass preserves holds after the pass. -/
theorem findRegularPhrases_induct {β : Type*} {P : List β → MiningState → Prop}
    (mk : (Sigma fun _ : List UInt8 => UInt32) → β) {o : Orders} {tokens : List Word}
    (hstep : ∀ e ∈ o.ngrams.run (ngramFreqs tokens).entries, ∀ ms s, P ms s →
      P (ms ++ [mk e]) (addRegularPhrase s e.1 e.2))
    {ms : List β} {s : MiningState} (h : P ms s) :
    P (ms ++ ((o.ngrams.run (ngramFreqs tokens).entries).filter fun e =>
        minPhraseFreq ≤ e.2 ∨ (e.2 = 1 ∧ (ngramFreqs tokens).entries.length < 1000)).map mk)
      (findRegularPhrases o tokens s) :=
  foldl_selected mk hstep h

/-- The state after both passes. -/
theorem mined_minePhrases {tokens : List Word} (htok : ∀ w ∈ tokens, IsToken w) {main : MainDict}
    (h : main.Coherent) (o : Orders) :
    Mined main (wildcardAdditions o tokens ++ regularAdditions o tokens)
      (minePhrases o tokens main) := by
  refine findRegularPhrases_induct ngramAddition (fun e _ ms s hmined => ?_)
    (findWildcardPhrases_induct Job.addition (fun j hj ms s hmined => ?_) (mined_nil h 0))
  · exact hmined.snoc (addRegularPhrase_adds hmined.coherent e.1 e.2)
  · exact hmined.snoc
      (addWildcardPhrase_adds hmined.coherent (star_mem_job htok hj) j.pos j.words j.total)

/-! ### The additions in terms of the text -/

section Characterisation

variable {tokens : List Word} (htok : ∀ w ∈ tokens, IsToken w) (o : Orders)
include htok

lemma mem_selectedJobs {j : Job} :
    (j ∈ (jobs o tokens).filter fun j => minPhraseFreq ≤ j.total) → ∃ occ ∈ selectedOccurrences tokens,
      j.pattern = joinWords occ.pattern ∧ j.pos = occ.pos := by
  intro h
  obtain ⟨hj, hfreq⟩ := List.mem_filter.mp h
  obtain ⟨occ, hocc, hkey, hpos⟩ := exists_occurrence hj
  rw [decide_eq_true_eq, Job.total, total_eq htok hj hocc hkey hpos, le_ofNat_iff] at hfreq
  exact ⟨occ, mem_selectedOccurrences.mpr ⟨hocc, hfreq⟩, hkey, hpos⟩

lemma exists_selectedJob {occ : Occurrence} (h : occ ∈ selectedOccurrences tokens) :
    ∃ j ∈ (jobs o tokens).filter fun j => minPhraseFreq ≤ j.total,
      j.pattern = joinWords occ.pattern ∧ j.pos = occ.pos := by
  obtain ⟨hocc, hsel⟩ := mem_selectedOccurrences.mp h
  have hne : slotWords tokens (joinWords occ.pattern) occ.pos ≠ [] := by
    rw [slotWords_eq htok hocc, ← List.length_pos_iff, List.length_map]
    exact List.length_pos_of_mem (List.mem_filter.mpr ⟨hocc, by simp⟩)
  obtain ⟨j, hj, hkey, hpos⟩ := exists_job (o := o) hne
  refine ⟨j, List.mem_filter.mpr ⟨hj, ?_⟩, hkey, hpos⟩
  rw [decide_eq_true_eq, Job.total, total_eq htok hj hocc hkey hpos, le_ofNat_iff]
  exact hsel

lemma exists_wildcardAddition {p : List Word} :
    (∃ m ∈ wildcardAdditions o tokens, m.path = p) ↔ Starred tokens p := by
  unfold wildcardAdditions Starred
  constructor
  · rintro ⟨m, hm, rfl⟩
    obtain ⟨j, hj, rfl⟩ := List.mem_map.mp hm
    obtain ⟨occ, hocc, hkey, -⟩ := mem_selectedJobs htok o hj
    obtain ⟨hocc, hsel⟩ := mem_selectedOccurrences.mp hocc
    refine ⟨occ, hocc, hsel, ?_⟩
    rw [Job.addition, hkey, splitWords_pattern htok hocc]
  · rintro ⟨occ, hocc, hsel, rfl⟩
    obtain ⟨j, hj, hkey, -⟩ := exists_selectedJob htok o (mem_selectedOccurrences.mpr ⟨hocc, hsel⟩)
    refine ⟨j.addition, List.mem_map_of_mem hj, ?_⟩
    rw [Job.addition, hkey, splitWords_pattern htok hocc]

lemma splitWords_selectedJob {j : Job}
    (h : j ∈ (jobs o tokens).filter fun j => minPhraseFreq ≤ j.total) :
    joinWords (splitWords j.pattern) = j.pattern := by
  obtain ⟨occ, hocc, hkey, -⟩ := mem_selectedJobs htok o h
  rw [hkey, splitWords_pattern htok (mem_selectedOccurrences.mp hocc).1]

lemma length_wildcardAdditions : (wildcardAdditions o tokens).length =
    ((selectedOccurrences tokens).map fun occ => (occ.pos, occ.pattern)).toFinset.card := by
  set js := (jobs o tokens).filter fun j => minPhraseFreq ≤ j.total with hjs
  have hkeys : (js.map fun j => (j.pattern, j.pos)).Nodup :=
    (jobs_keys_nodup o tokens).sublist (List.filter_sublist.map _)
  have hnodup : (js.map fun j => (j.pos, splitWords j.pattern)).Nodup := by
    refine hkeys.of_map.map_on fun j hj j' hj' heq => ?_
    refine List.inj_on_of_nodup_map hkeys hj hj' ?_
    rw [Prod.mk.injEq] at heq ⊢
    refine ⟨?_, heq.1⟩
    rw [← splitWords_selectedJob htok o hj, ← splitWords_selectedJob htok o hj', heq.2]
  have hset : (js.map fun j => (j.pos, splitWords j.pattern)).toFinset =
      ((selectedOccurrences tokens).map fun occ => (occ.pos, occ.pattern)).toFinset := by
    ext x
    simp only [List.mem_toFinset, List.mem_map]
    constructor
    · rintro ⟨j, hj, rfl⟩
      obtain ⟨occ, hocc, hkey, hpos⟩ := mem_selectedJobs htok o hj
      refine ⟨occ, hocc, ?_⟩
      rw [hkey, hpos, splitWords_pattern htok (mem_selectedOccurrences.mp hocc).1]
    · rintro ⟨occ, hocc, rfl⟩
      obtain ⟨j, hj, hkey, hpos⟩ := exists_selectedJob htok o hocc
      refine ⟨j, hj, ?_⟩
      rw [hkey, hpos, splitWords_pattern htok (mem_selectedOccurrences.mp hocc).1]
  rw [← hset, List.toFinset_card_of_nodup hnodup, List.length_map, wildcardAdditions, List.length_map]

lemma words_wildcardAdditions : ((wildcardAdditions o tokens).flatMap Addition.words).toFinset =
    ((selectedOccurrences tokens).flatMap fun occ =>
      occ.word :: occ.pattern.filter (· != star)).toFinset := by
  -- The words recorded for a job are the wildcard words of the occurrences of its pattern.
  have hslot : ∀ j ∈ jobs o tokens, ∀ w, w ∈ j.words.map (fun entry => entry.1) ↔
      w ∈ slotWords tokens j.pattern j.pos := by
    intro j hj w
    rw [((mem_jobs hj).2.map _).mem_iff]
    exact AList.mem_keys.symm.trans mem_tally
  ext w
  simp only [List.mem_toFinset, List.mem_flatMap, wildcardAdditions, List.mem_map]
  constructor
  · rintro ⟨m, ⟨j, hj, rfl⟩, hw⟩
    obtain ⟨occ, hocc, hkey, hpos⟩ := mem_selectedJobs htok o hj
    obtain ⟨hmem, hsel⟩ := mem_selectedOccurrences.mp hocc
    rcases List.mem_append.mp hw with hw | hw
    · rw [hkey, splitWords_pattern htok hmem] at hw
      exact ⟨occ, hocc, List.mem_cons_of_mem _ hw⟩
    · rw [hslot j (List.mem_filter.mp hj).1, hkey, hpos, slotWords_eq htok hmem] at hw
      obtain ⟨occ', hocc', rfl⟩ := List.mem_map.mp hw
      simp only [List.mem_filter, decide_eq_true_eq] at hocc'
      refine ⟨occ', mem_selectedOccurrences.mpr ⟨hocc'.1, ?_⟩, List.mem_cons_self⟩
      simpa [Selected, patternCount, hocc'.2] using hsel
  · rintro ⟨occ, hocc, hw⟩
    obtain ⟨hmem, -⟩ := mem_selectedOccurrences.mp hocc
    obtain ⟨j, hj, hkey, hpos⟩ := exists_selectedJob htok o hocc
    refine ⟨j.addition, ⟨j, hj, rfl⟩, ?_⟩
    rcases List.mem_cons.mp hw with rfl | hw
    · refine List.mem_append_right _ ?_
      rw [hslot j (List.mem_filter.mp hj).1, hkey, hpos, slotWords_eq htok hmem]
      exact List.mem_map_of_mem (List.mem_filter.mpr ⟨hmem, by simp⟩)
    · refine List.mem_append_left _ ?_
      rw [hkey, splitWords_pattern htok hmem]
      exact hw

/-! ### The n-grams -/

lemma count_joinWords {p : List Word} (hp : p ∈ buildNgrams tokens 2 5) :
    ((buildNgrams tokens 2 5).map joinWords).countP (fun k => k = joinWords p) =
      (buildNgrams tokens 2 5).count p := by
  rw [List.count_eq_countP, List.countP_map]
  refine List.countP_congr fun q hq => ?_
  simp only [Function.comp_apply, beq_iff_eq, decide_eq_true_eq]
  exact ⟨fun heq => joinWords_injOn (ngram_isToken htok hq) (ngram_isToken htok hp) heq,
    fun heq => by rw [heq]⟩

lemma length_ngramFreqs :
    (ngramFreqs tokens).entries.length = (buildNgrams tokens 2 5).toFinset.card := by
  have hlen : (ngramFreqs tokens).entries.length = (ngramFreqs tokens).keys.length := by
    simp [AList.keys, List.keys]
  have hset : (ngramFreqs tokens).keys.toFinset = (buildNgrams tokens 2 5).toFinset.image joinWords := by
    ext k
    rw [List.mem_toFinset, ← AList.mem_keys, ngramFreqs, mem_tally]
    simp
  rw [hlen, ← List.toFinset_card_of_nodup (ngramFreqs tokens).keys_nodup, hset]
  refine Finset.card_image_of_injOn fun p hp q hq heq => ?_
  rw [List.coe_toFinset] at hp hq
  exact joinWords_injOn (ngram_isToken htok hp) (ngram_isToken htok hq) heq

lemma mem_selectedNgrams {e : Sigma fun _ : List UInt8 => UInt32} :
    (e ∈ (o.ngrams.run (ngramFreqs tokens).entries).filter fun e =>
      minPhraseFreq ≤ e.2 ∨ (e.2 = 1 ∧ (ngramFreqs tokens).entries.length < 1000)) ↔
      ∃ p ∈ registeredNgrams tokens,
        e = ⟨joinWords p, UInt32.ofNat ((buildNgrams tokens 2 5).count p)⟩ := by
  obtain ⟨k, v⟩ := e
  have hsel : ∀ p ∈ buildNgrams tokens 2 5,
      (minPhraseFreq ≤ UInt32.ofNat ((buildNgrams tokens 2 5).count p) ∨
        (UInt32.ofNat ((buildNgrams tokens 2 5).count p) = 1 ∧
          (ngramFreqs tokens).entries.length < 1000)) ↔ Registered tokens p := by
    intro p hp
    rw [le_ofNat_iff, ofNat_eq_one_iff, length_ngramFreqs htok]
    exact (and_iff_right hp).symm
  rw [List.mem_filter, (o.ngrams.perm _).mem_iff, ngramFreqs, mem_entries_tally, decide_eq_true_eq]
  constructor
  · rintro ⟨⟨hk, hv⟩, hfreq⟩
    obtain ⟨p, hp, rfl⟩ := List.mem_map.mp hk
    rw [count_joinWords htok hp] at hv
    subst hv
    exact ⟨p, mem_registeredNgrams.mpr ((hsel p hp).mp hfreq), rfl⟩
  · rintro ⟨p, hp, heq⟩
    have hreg := mem_registeredNgrams.mp hp
    cases heq
    refine ⟨⟨List.mem_map_of_mem hreg.1, by rw [count_joinWords htok hreg.1]⟩, ?_⟩
    exact (hsel p hreg.1).mpr hreg

lemma splitWords_ngram {p : List Word} (hp : p ∈ registeredNgrams tokens) :
    splitWords (joinWords p) = p :=
  splitWords_joinWords (ngram_isToken htok (mem_registeredNgrams.mp hp).1)

lemma exists_regularAddition {p : List Word} :
    (∃ m ∈ regularAdditions o tokens, m.path = p) ↔ Registered tokens p := by
  rw [← mem_registeredNgrams]
  unfold regularAdditions
  constructor
  · rintro ⟨m, hm, rfl⟩
    obtain ⟨e, he, rfl⟩ := List.mem_map.mp hm
    obtain ⟨p, hp, rfl⟩ := (mem_selectedNgrams htok o).mp he
    rw [ngramAddition, splitWords_ngram htok hp]
    exact hp
  · intro hp
    refine ⟨_, List.mem_map_of_mem ((mem_selectedNgrams htok o).mpr ⟨p, hp, rfl⟩), ?_⟩
    exact splitWords_ngram htok hp

lemma length_regularAdditions :
    (regularAdditions o tokens).length = (registeredNgrams tokens).toFinset.card := by
  set es := (o.ngrams.run (ngramFreqs tokens).entries).filter fun e =>
    minPhraseFreq ≤ e.2 ∨ (e.2 = 1 ∧ (ngramFreqs tokens).entries.length < 1000) with hes
  have hkeys : (es.map Sigma.fst).Nodup :=
    (nodup_keys_run (ngramFreqs tokens) o.ngrams).sublist (List.filter_sublist.map _)
  have hset : (es.map Sigma.fst).toFinset = (registeredNgrams tokens).toFinset.image joinWords := by
    ext k
    simp only [List.mem_toFinset, List.mem_map, Finset.mem_image]
    constructor
    · rintro ⟨e, he, rfl⟩
      obtain ⟨p, hp, rfl⟩ := (mem_selectedNgrams htok o).mp he
      exact ⟨p, hp, rfl⟩
    · rintro ⟨p, hp, rfl⟩
      exact ⟨_, (mem_selectedNgrams htok o).mpr ⟨p, hp, rfl⟩, rfl⟩
  have hinj : Set.InjOn joinWords ↑(registeredNgrams tokens).toFinset := by
    intro p hp q hq heq
    rw [List.coe_toFinset] at hp hq
    rw [← splitWords_ngram htok hp, ← splitWords_ngram htok hq, heq]
  rw [← Finset.card_image_of_injOn hinj, ← hset, List.toFinset_card_of_nodup hkeys, List.length_map,
    regularAdditions, List.length_map]

lemma words_regularAdditions : ((regularAdditions o tokens).flatMap Addition.words).toFinset =
    ((registeredNgrams tokens).flatMap id).toFinset := by
  ext w
  simp only [List.mem_toFinset, List.mem_flatMap, regularAdditions, List.mem_map, id_eq]
  constructor
  · rintro ⟨m, ⟨e, he, rfl⟩, hw⟩
    obtain ⟨p, hp, rfl⟩ := (mem_selectedNgrams htok o).mp he
    refine ⟨p, hp, ?_⟩
    rw [← splitWords_ngram htok hp]
    exact hw
  · rintro ⟨p, hp, hw⟩
    refine ⟨_, ⟨_, (mem_selectedNgrams htok o).mpr ⟨p, hp, rfl⟩, rfl⟩, ?_⟩
    rw [← splitWords_ngram htok hp] at hw
    exact hw

/-- The number of phrases and the size of the dictionary after both passes. -/
theorem minePhrases_sizes {main : MainDict} (h : main.Coherent) :
    (minePhrases o tokens main).phraseDecode.length = phraseCount tokens ∧
      (minePhrases o tokens main).main.decode.length =
        main.decode.length + (phraseWordSet tokens \ main.decode.toFinset).card ∧
      ∀ w, w ∈ (minePhrases o tokens main).main.decode ↔
        w ∈ main.decode ∨ w ∈ phraseWordSet tokens := by
  have hmined := mined_minePhrases htok h o
  have hwords : ((wildcardAdditions o tokens ++ regularAdditions o tokens).flatMap
      Addition.words).toFinset = phraseWordSet tokens := by
    rw [List.flatMap_append, List.toFinset_append, words_wildcardAdditions htok o,
      words_regularAdditions htok o, phraseWordSet]
  refine ⟨?_, ?_, fun w => ?_⟩
  · rw [hmined.count, List.length_append, length_wildcardAdditions htok o,
      length_regularAdditions htok o, phraseCount]
  · rw [hmined.decode, length_appendNew, hwords]
  · rw [hmined.decode, mem_appendNew, ← hwords, List.mem_toFinset]

/-- The words on a path of the trie are in the dictionary. -/
lemma path_known {main : MainDict} (h : main.Coherent) {p : List Word}
    (hend : ((minePhrases o tokens main).phraseTrieRoot.infoAt {} p).isEnd = true) :
    ∀ w ∈ p, w ∈ (minePhrases o tokens main).main.decode := by
  have hmined := mined_minePhrases htok h o
  obtain ⟨m, hm, rfl⟩ := (hmined.isEnd p).mp hend
  intro w hw
  rw [hmined.decode, mem_appendNew]
  refine Or.inr (List.mem_flatMap.mpr ⟨m, hm, ?_⟩)
  rcases List.mem_append.mp hm with hm | hm
  · obtain ⟨j, -, rfl⟩ := List.mem_map.mp hm
    exact List.mem_append_left _ hw
  · obtain ⟨e, -, rfl⟩ := List.mem_map.mp hm
    exact hw

end Characterisation

lemma phraseWordSet_subset {tokens : List Word} {w : Word} (hw : w ∈ phraseWordSet tokens) :
    w ∈ tokens := by
  simp only [phraseWordSet, Finset.mem_union, List.mem_toFinset, List.mem_flatMap, id_eq] at hw
  rcases hw with ⟨o, ho, hw⟩ | ⟨p, hp, hw⟩
  · have hocc := (mem_selectedOccurrences.mp ho).1
    rcases List.mem_cons.mp hw with rfl | hw
    · exact word_mem_tokens hocc
    · obtain ⟨hmem, hne⟩ := List.mem_filter.mp hw
      rcases List.mem_or_eq_of_mem_set hmem with hmem | rfl
      · exact (mem_wildcardOccurrences hocc).2 w hmem
      · simp at hne
  · exact mem_buildNgrams (mem_registeredNgrams.mp hp).1 w hw

/-! ### The length of the phrases -/

def LongPhrases (s : MiningState) : Prop := ∀ p ∈ s.phraseDecode, 2 ≤ p.wordCodes.length

lemma codesOf_length (skip : Word → Bool) (d : MainDict) (words : List Word) :
    (codesOf skip d words).1.length = words.length := by
  induction words generalizing d with
  | nil => rfl
  | cons w words ih =>
    unfold codesOf
    split <;> simp [ih]

lemma LongPhrases.append {s s' : MiningState} (h : LongPhrases s) {e : PhraseInfo}
    (hs' : s'.phraseDecode = s.phraseDecode ++ [e]) (he : 2 ≤ e.wordCodes.length) :
    LongPhrases s' := by
  intro p hp
  rw [hs'] at hp
  rcases List.mem_append.mp hp with hp | hp
  · exact h p hp
  · rw [List.mem_singleton.mp hp]
    exact he

/-- Every phrase has at least two codes. -/
theorem longPhrases_minePhrases {tokens : List Word} (htok : ∀ w ∈ tokens, IsToken w) (o : Orders)
    (main : MainDict) : LongPhrases (minePhrases o tokens main) := by
  have hjobs : ∀ j ∈ jobs o tokens, 2 ≤ (splitWords j.pattern).length := by
    intro j hj
    obtain ⟨occ, hocc, hkey, -⟩ := exists_occurrence hj
    rw [hkey, splitWords_pattern htok hocc]
    exact (pattern_bounds hocc).1
  have hngrams : ∀ e ∈ o.ngrams.run (ngramFreqs tokens).entries, 2 ≤ (splitWords e.1).length := by
    rintro ⟨k, v⟩ he
    obtain ⟨hmem, -⟩ := mem_entries_tally.mp ((o.ngrams.perm _).mem_iff.mp he)
    obtain ⟨p, hp, rfl⟩ := List.mem_map.mp hmem
    rw [splitWords_joinWords (ngram_isToken htok hp)]
    exact (ngram_spec hp).1
  have hempty : LongPhrases ⟨main, Trie.leaf {}, [], 0⟩ := by simp [LongPhrases]
  have hwild : LongPhrases (findWildcardPhrases o tokens ⟨main, Trie.leaf {}, [], 0⟩) :=
    findWildcardPhrases_induct (P := fun _ s => LongPhrases s) id
      (fun j hj _ s hs => hs.append rfl ((codesOf_length _ _ _).symm ▸ hjobs j hj)) hempty
  exact @findRegularPhrases_induct _ (fun _ s => LongPhrases s) id o tokens
    (fun e he _ s hs => hs.append rfl ((codesOf_length _ _ _).symm ▸ hngrams e he)) [] _ hwild

end HashCompress.PhraseMining
