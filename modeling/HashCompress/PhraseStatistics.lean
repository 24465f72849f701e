import HashCompress.RegularPhrases
import HashCompress.CodeOrder

/-!
# The printed statistics

What `print_phrase_stats` shows in terms of the text: the patterns and the n-grams that it counts, and
the ten highest frequencies.
-/
namespace HashCompress.Compressor

open WordText TallyMap CodeTables DictionaryFile PhraseMining RegularPhrases Tokenizer

lemma map_eq_of_forall₂ {α β γ : Type*} {R : α → β → Prop} {f : α → γ} {g : β → γ} {l : List α}
    {l' : List β} (h : List.Forall₂ R l l') (hR : ∀ a b, R a b → f a = g b) : l.map f = l'.map g := by
  induction h with
  | nil => rfl
  | cons hab _ ih => rw [List.map_cons, List.map_cons, hR _ _ hab, ih]

lemma countP_eq_of_forall₂ {α β : Type*} {R : α → β → Prop} {f : α → Bool} {g : β → Bool} {l : List α}
    {l' : List β} (h : List.Forall₂ R l l') (hR : ∀ a b, R a b → f a = g b) :
    l.countP f = l'.countP g := by
  have hmap := congrArg (List.countP id) (map_eq_of_forall₂ h hR)
  rw [List.countP_map, List.countP_map] at hmap
  exact hmap

lemma map_mapM {α β γ : Type} {f : α → Option β} {g : β → γ} {k : α → γ} {l : List α} {ys : List β}
    (h : l.mapM f = some ys) (hf : ∀ x ∈ l, ∀ y, f x = some y → g y = k x) : ys.map g = l.map k := by
  induction l generalizing ys with
  | nil =>
    cases h
    rfl
  | cons x l ih =>
    rw [List.mapM_cons] at h
    obtain ⟨y, hy, h⟩ := Option.bind_eq_some_iff.mp h
    obtain ⟨ys', hys, h⟩ := Option.bind_eq_some_iff.mp h
    cases h
    rw [List.map_cons, List.map_cons, hf x List.mem_cons_self y hy,
      ih hys fun z hz => hf z (List.mem_cons_of_mem _ hz)]

/-! ### The figures in terms of the phrase list -/

/-- The first ten of the frequencies in falling order. -/
structure TopTen (top frequencies : List ℕ) : Prop where
  length_eq : top.length = min 10 frequencies.length
  falling : ∃ rest, (top ++ rest).Perm frequencies ∧ (top ++ rest).Pairwise (· ≥ ·)

lemma printPhraseStats_top {sort : SortOrder (UInt32 × ℕ) fun a b => a.1 > b.1}
    {c : TwoTierTextCompressor} {stats : PhraseStats} (h : printPhraseStats sort c = some stats) :
    TopTen (stats.top.map fun x => x.1.toNat) (c.phraseDecode.map fun e => e.frequency.toNat) := by
  set pairs := c.phraseDecode.zipIdx.map fun x => (x.1.frequency, x.2) with hpairs
  obtain ⟨top, htop, hstats⟩ := Option.bind_eq_some_iff.mp h
  obtain rfl := Option.some.inj hstats
  have hshown : (top.map fun x => x.1.toNat) =
      ((sort.run pairs).take 10).map fun x => x.1.toNat := by
    refine map_mapM htop fun x hx line hline => ?_
    obtain ⟨⟨e, i⟩, he, rfl⟩ :=
      List.mem_map.mp ((sort.perm pairs).mem_iff.mp (List.mem_of_mem_take hx))
    have hget : c.phraseDecode[i]? = some e := List.mk_mem_zipIdx_iff_getElem?.mp he
    simp only [hget, Option.bind_eq_bind, Option.bind_some] at hline
    obtain ⟨text, -, hline⟩ := Option.bind_eq_some_iff.mp hline
    rw [← Option.some.inj hline]
  have hperm : ((sort.run pairs).map fun x => x.1.toNat).Perm
      (c.phraseDecode.map fun e => e.frequency.toNat) := by
    have hmap : (pairs.map fun x => x.1.toNat) = c.phraseDecode.map fun e => e.frequency.toNat := by
      conv_rhs => rw [← List.zipIdx_map_fst 0 c.phraseDecode, List.map_map]
      rw [hpairs, List.map_map]
      rfl
    rw [← hmap]
    exact (sort.perm pairs).map _
  constructor
  · have hlen := hperm.length_eq
    rw [List.length_map] at hlen
    dsimp only
    rw [hshown, List.length_map, List.length_take, hlen]
  · refine ⟨((sort.run pairs).drop 10).map fun x => x.1.toNat, ?_⟩
    dsimp only
    rw [hshown, ← List.map_append, List.take_append_drop]
    refine ⟨hperm, List.pairwise_map.mpr ?_⟩
    exact (sort.sorted pairs).imp fun hab => UInt32.le_iff_toNat_le.mp (UInt32.not_lt.mp hab)

/-- The two counters of the loop wrap at 2^32. -/
lemma countPhrases_eq (phrases : List PhraseInfo) : countPhrases phrases =
    (UInt32.ofNat (phrases.countP fun p => p.hasWildcard),
      UInt32.ofNat (phrases.countP fun p => !p.hasWildcard)) := by
  have hloop : ∀ counts : UInt32 × UInt32, phrases.foldl (fun counts phrase =>
      if phrase.hasWildcard then (counts.1 + 1, counts.2) else (counts.1, counts.2 + 1)) counts =
      (counts.1 + UInt32.ofNat (phrases.countP fun p => p.hasWildcard),
        counts.2 + UInt32.ofNat (phrases.countP fun p => !p.hasWildcard)) := by
    induction phrases with
    | nil => simp
    | cons p phrases ih =>
      intro counts
      rw [List.foldl_cons, ih, List.countP_cons, List.countP_cons]
      cases p.hasWildcard with
      | false => simp [UInt32.ofNat_add, UInt32.add_assoc, UInt32.add_comm 1]
      | true => simp [UInt32.ofNat_add, UInt32.add_assoc, UInt32.add_comm 1]
  rw [countPhrases, hloop]
  simp

lemma printPhraseStats_figures {sort : SortOrder (UInt32 × ℕ) fun a b => a.1 > b.1}
    {c : TwoTierTextCompressor} {stats : PhraseStats} (h : printPhraseStats sort c = some stats) :
    stats.total = c.phraseDecode.length ∧ stats.nonRepeated = c.nonRepeatedPhrases ∧
      stats.regular = UInt32.ofNat (c.phraseDecode.countP fun p => !p.hasWildcard) ∧
      stats.wildcard = UInt32.ofNat (c.phraseDecode.countP fun p => p.hasWildcard) := by
  obtain ⟨top, -, hstats⟩ := Option.bind_eq_some_iff.mp h
  obtain rfl := Option.some.inj hstats
  dsimp only
  rw [countPhrases_eq]
  exact ⟨rfl, rfl, rfl, rfl⟩

/-! ### The phrase list in terms of the text -/

section Mined

variable {tokens : List Word} (htok : ∀ w ∈ tokens, IsToken w) (o : Orders)

/-- The wildcard pass never meets a total of one: such a pattern is not selected. -/
lemma findWildcardPhrases_nonRepeated (s : MiningState) :
    (findWildcardPhrases o tokens s).nonRepeatedPhrases = s.nonRepeatedPhrases := by
  have hpass := @findWildcardPhrases_induct Job (fun js s' => s'.nonRepeatedPhrases =
    s.nonRepeatedPhrases + UInt32.ofNat (js.countP fun j => j.total = 1)) id o tokens ?_ s
    (UInt32.add_zero _).symm
  · rw [List.map_id] at hpass
    have hnone : ((jobs o tokens).filter fun j => minPhraseFreq ≤ j.total).countP
        (fun j => j.total = 1) = 0 := by
      refine List.countP_eq_zero.mpr fun j hj hone => ?_
      have hfreq := (List.mem_filter.mp hj).2
      rw [decide_eq_true_eq] at hfreq hone
      rw [hone] at hfreq
      exact absurd hfreq (by decide)
    rw [hpass, hnone]
    exact UInt32.add_zero _
  · intro j _ js s' hs'
    have hstep : (addWildcardPhrase s' j.pattern j.pos j.words j.total).nonRepeatedPhrases =
        if j.total = 1 then s'.nonRepeatedPhrases + 1 else s'.nonRepeatedPhrases := rfl
    rw [hstep, id, List.countP_append, List.countP_singleton, hs']
    by_cases hone : j.total = 1
    · simp [hone, UInt32.ofNat_add, UInt32.add_assoc]
    · simp [hone]

include htok

/-- The entries of both passes and what they stand for. -/
lemma minePhrases_entries (hsize : tokens.length < 2 ^ 32) {main : MainDict} (h : main.Coherent) :
    ∃ wild regular patterns ngrams,
      (minePhrases o tokens main).phraseDecode = wild ++ regular ∧
      patterns.Nodup ∧ (∀ t : SlotPattern, t ∈ patterns ↔ t.Repeated tokens) ∧
      ngrams.Nodup ∧ (∀ p, p ∈ ngrams ↔ IsPhrase tokens p) ∧
      List.Forall₂ (EntryFor tokens) wild patterns ∧
      List.Forall₂ (NgramEntry tokens (minePhrases o tokens main).main.decode) regular ngrams ∧
      (minePhrases o tokens main).nonRepeatedPhrases =
        UInt32.ofNat (regular.countP fun e => e.frequency = 1) := by
  set s := findWildcardPhrases o tokens ⟨main, KeyTrie.Trie.leaf {}, [], 0⟩ with hs
  have hcoherent : s.main.Coherent := by
    rw [hs, findWildcardPhrases_main]
    exact lookUp_coherent h _
  obtain ⟨wild, hwild, hentries⟩ :=
    findWildcardPhrases_entries htok o hsize ⟨main, KeyTrie.Trie.leaf {}, [], 0⟩
  obtain ⟨regular, hregular, hngrams, hcount⟩ :=
    (appended_findRegularPhrases htok o hsize hcoherent).entries
  refine ⟨wild, regular, _, _, ?_, slotPatterns_nodup htok o, fun t => mem_slotPatterns htok o hsize,
    nodup_regularAdditions htok o, fun p => ?_, List.forall₂_map_right_iff.mpr hentries, hngrams, ?_⟩
  · rw [minePhrases, hregular, hs, hwild]
    rfl
  · rw [mem_paths_regularAdditions htok o, registered_iff_isPhrase hsize]
  · rw [minePhrases, hcount, hs, findWildcardPhrases_nonRepeated]
    exact UInt32.zero_add _

end Mined

/-- Single n-grams are phrases only in texts with few of them, so that their number fits. -/
lemma countP_single_lt {tokens : List Word} {ngrams : List (List Word)} (hnodup : ngrams.Nodup)
    (hmem : ∀ p, p ∈ ngrams ↔ IsPhrase tokens p) :
    (ngrams.countP fun p => ngramStarts tokens p = 1) < 2 ^ 32 := by
  by_cases hnone : (ngrams.countP fun p => ngramStarts tokens p = 1) = 0
  · omega
  · obtain ⟨p, hp, hone⟩ := List.countP_pos_iff.mp (Nat.pos_of_ne_zero hnone)
    rw [decide_eq_true_eq] at hone
    have hfew : {q | IsNgram tokens q}.ncard < 1000 := by
      rcases ((hmem p).mp hp).frequent with htwo | hsingle
      · omega
      · exact hsingle.2
    have hsub : (ngrams.toFinset : Set (List Word)) ⊆ {q | IsNgram tokens q} := by
      intro q hq
      rw [List.coe_toFinset] at hq
      exact ((hmem q).mp hq).ngram
    have hle := Set.ncard_le_ncard hsub (finite_ngrams tokens)
    rw [Set.ncard_coe_finset, List.toFinset_card_of_nodup hnodup] at hle
    have hcount : (ngrams.countP fun p => ngramStarts tokens p = 1) ≤ ngrams.length :=
      List.countP_le_length
    omega

/-- What a run that returned true has printed. -/
lemma compress_printed {ch : Choices} {files : CompressFiles} {c : TwoTierTextCompressor}
    (h : (compress ch files c).status = .success) :
    ∃ text stats, files.input = some text ∧
      printPhraseStats ch.sortPhrases (compress ch files c).object = some stats ∧
      let words := wordsFor ch files text
      let mined := minePhrases ch.orders (tokenizeRaw text) ⟨buildEncode words, words⟩
      (compress ch files c).object.phraseDecode = mined.phraseDecode ∧
        (compress ch files c).object.nonRepeatedPhrases = mined.nonRepeatedPhrases := by
  obtain ⟨text, hinput, -, hfinish⟩ := compress_eq_finish h
  rw [hfinish] at h ⊢
  obtain ⟨hstats, hlocal⟩ := finish_success h
  rw [finish_eq_writeFiles hstats hlocal] at h ⊢
  obtain ⟨bw, -, hrun⟩ := writeFiles_success h
  obtain ⟨stats, hstats⟩ := Option.isSome_iff_exists.mp hstats
  rw [hrun]
  exact ⟨text, stats, hinput, hstats, rfl, rfl⟩

/-- `print_phrase_stats` tells the truth about every text of fewer than 2^32 tokens, whatever the object
was before and in whatever order the maps are traversed: the wildcard phrases are the patterns that
repeat, the regular ones the n-grams that occur often enough, the non-repeated ones those that occur
once, and the list shows the ten highest of all their frequencies. The total is exact, the figures of
the two kinds are 32-bit counters. -/
theorem compress_stats (ch : Choices) (files : CompressFiles) (c : TwoTierTextCompressor)
    (hsuccess : (compress ch files c).status = .success) (hsize : files.rawTokens.length < 2 ^ 32) :
    ∃ (stats : PhraseStats) (patterns : List SlotPattern) (ngrams : List (List Word)),
      printPhraseStats ch.sortPhrases (compress ch files c).object = some stats ∧
      patterns.Nodup ∧ (∀ t, t ∈ patterns ↔ t.Repeated files.rawTokens) ∧
      ngrams.Nodup ∧ (∀ p, p ∈ ngrams ↔ IsPhrase files.rawTokens p) ∧
      stats.total = patterns.length + ngrams.length ∧
      stats.wildcard.toNat = patterns.length % 2 ^ 32 ∧ stats.regular.toNat = ngrams.length % 2 ^ 32 ∧
      stats.nonRepeated.toNat = (ngrams.countP fun p => ngramStarts files.rawTokens p = 1) ∧
      TopTen (stats.top.map fun x => x.1.toNat)
        ((patterns.map fun t => (t.starts files.rawTokens).length) ++
          ngrams.map (ngramStarts files.rawTokens)) := by
  obtain ⟨text, stats, hinput, hprinted, hdecode, hsingle⟩ := compress_printed hsuccess
  have hraw : files.rawTokens = tokenizeRaw text := by rw [CompressFiles.rawTokens, hinput]; rfl
  rw [hraw] at hsize ⊢
  obtain ⟨wild, regular, patterns, ngrams, hentries, hpatterns, hrepeated, hngrams, hphrase, hwild,
    hregular, hcount⟩ := minePhrases_entries rawTokens_isToken ch.orders hsize
      (buildEncode_coherent (wordsFor ch files text))
  have htop := printPhraseStats_top hprinted
  obtain ⟨htotal, hnon, hreg, hwc⟩ := printPhraseStats_figures hprinted
  rw [hdecode, hentries] at htotal hreg hwc htop
  rw [hsingle, hcount] at hnon
  have hfrequencies : ((wild ++ regular).map fun e => e.frequency.toNat) =
      (patterns.map fun t => (t.starts (tokenizeRaw text)).length) ++
        ngrams.map (ngramStarts (tokenizeRaw text)) := by
    rw [List.map_append, map_eq_of_forall₂ hwild fun e t he => he.frequency,
      map_eq_of_forall₂ hregular fun e p he => he.frequency]
  have hones : (regular.countP fun e => e.frequency = 1) =
      ngrams.countP fun p => ngramStarts (tokenizeRaw text) p = 1 := by
    refine countP_eq_of_forall₂ hregular fun e p he => ?_
    rw [← he.frequency]
    exact decide_eq_decide.mpr UInt32.toNat_inj.symm
  -- the flags tell the two kinds apart
  rw [List.countP_append, countP_eq_of_forall₂ (g := fun _ => false) hwild fun e t he => by
      rw [he.hasWildcard]; rfl, countP_eq_of_forall₂ (g := fun _ => true) hregular fun e p he => by
      rw [he.hasWildcard]; rfl] at hreg
  rw [List.countP_append, countP_eq_of_forall₂ (g := fun _ => true) hwild fun e t he => he.hasWildcard,
    countP_eq_of_forall₂ (g := fun _ => false) hregular fun e p he => he.hasWildcard] at hwc
  refine ⟨stats, patterns, ngrams, hprinted, hpatterns, hrepeated, hngrams, hphrase, ?_, ?_, ?_, ?_, ?_⟩
  · rw [htotal, List.length_append, hwild.length_eq, hregular.length_eq]
  · rw [hwc, UInt32.toNat_ofNat']
    simp
  · rw [hreg, UInt32.toNat_ofNat']
    simp
  · rw [hnon, hones, UInt32.toNat_ofNat_of_lt' (countP_single_lt hngrams hphrase)]
  · rw [← hfrequencies]
    exact htop

theorem compress_stats_twice : ∃ (stats : PhraseStats) (patterns : List SlotPattern)
    (ngrams : List (List Word)),
    printPhraseStats stableChoices.sortPhrases (compress stableChoices twiceFiles {}).object =
      some stats ∧
    stats.total = patterns.length + ngrams.length ∧ stats.wildcard.toNat = patterns.length % 2 ^ 32 ∧
      stats.regular.toNat = ngrams.length % 2 ^ 32 ∧
      TopTen (stats.top.map fun x => x.1.toNat)
        ((patterns.map fun t => (t.starts twiceFiles.rawTokens).length) ++
          ngrams.map (ngramStarts twiceFiles.rawTokens)) := by
  obtain ⟨stats, patterns, ngrams, hprinted, -, -, -, -, htotal, hwildcard, hregular, -, htop⟩ :=
    compress_stats stableChoices twiceFiles {} (by decide +kernel) (by decide +kernel)
  exact ⟨stats, patterns, ngrams, hprinted, htotal, hwildcard, hregular, htop⟩

end HashCompress.Compressor
