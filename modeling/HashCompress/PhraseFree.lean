import HashCompress.RegularPhrases

/-!
# Texts without phrases

When the two passes find nothing at all.
-/
namespace HashCompress.PhraseFree

open WordText TallyMap KeyTrie CodeTables PhraseMining RegularPhrases Tokenizer

lemma take_two {tokens : List Word} {i : ℕ} (h : i + 1 < tokens.length) :
    (tokens.drop i).take 2 = [tokens[i], tokens[i + 1]] := by
  rw [List.drop_eq_getElem_cons (by omega), List.take_succ_cons,
    List.drop_eq_getElem_cons (show i + 1 < tokens.length from h), List.take_succ_cons,
    List.take_zero]

lemma two_le_length_of_mem {l : List ℕ} {i j : ℕ} (hi : i ∈ l) (hj : j ∈ l) (hij : i ≠ j) :
    2 ≤ l.length := by
  rcases l with - | ⟨x, - | ⟨y, l⟩⟩
  · simp at hi
  · rw [List.mem_singleton] at hi hj
    exact absurd (hi.trans hj.symm) hij
  · simp

/-- The two positions at which a repeated pattern starts share the word next to the slot. -/
lemma repeated_words {tokens : List Word} {t : SlotPattern} (h : t.Repeated tokens) :
    ∃ i j, i < j ∧ j + 1 < tokens.length ∧
      (tokens[i]? = tokens[j]? ∨ tokens[i + 1]? = tokens[j + 1]?) := by
  have hnodup : (t.starts tokens).Nodup := List.nodup_range.filter _
  have h2 := h.two_le
  have hrep := h.repeated
  have hword : ∀ start ∈ t.starts tokens, start + t.length ≤ tokens.length ∧
      t.others[0]? = tokens[start + if t.pos = 0 then 1 else 0]? := by
    intro start hstart
    obtain ⟨hrange, hothers⟩ := List.mem_filter.mp hstart
    rw [List.mem_range] at hrange
    refine ⟨by omega, ?_⟩
    rw [← of_decide_eq_true hothers, List.getElem?_eraseIdx]
    split_ifs with hpos hzero
    · omega
    · rw [List.getElem?_take_of_lt (by omega), List.getElem?_drop]
    · rw [List.getElem?_take_of_lt (by omega), List.getElem?_drop]
    · omega
  rcases hstarts : t.starts tokens with - | ⟨a, - | ⟨b, rest⟩⟩
  · simp [hstarts] at hrep
  · simp [hstarts] at hrep
  · rw [hstarts] at hnodup hword
    obtain ⟨hfita, hworda⟩ := hword a (by simp)
    obtain ⟨hfitb, hwordb⟩ := hword b (by simp)
    have hne : a ≠ b := fun heq => by simp [heq] at hnodup
    have heq := hworda.symm.trans hwordb
    have hside : tokens[a]? = tokens[b]? ∨ tokens[a + 1]? = tokens[b + 1]? := by
      split_ifs at heq
      · exact Or.inr heq
      · exact Or.inl heq
    rcases Nat.lt_or_gt_of_ne hne with hlt | hlt
    · exact ⟨a, b, hlt, by omega, hside⟩
    · exact ⟨b, a, hlt, by omega, hside.imp Eq.symm Eq.symm⟩

/-- A word that comes twice, other than at the end both times or at the beginning both times. -/
lemma not_nodup_iff {tokens : List Word} :
    ¬ (tokens.dropLast.Nodup ∧ tokens.tail.Nodup) ↔ ∃ i j, i < j ∧ j + 1 < tokens.length ∧
      (tokens[i]? = tokens[j]? ∨ tokens[i + 1]? = tokens[j + 1]?) := by
  rw [List.nodup_iff_getElem?_ne_getElem?, List.nodup_iff_getElem?_ne_getElem?, not_and_or]
  simp only [not_forall, ne_eq, not_not, List.length_dropLast, List.length_tail]
  have hdrop : ∀ k, k + 1 < tokens.length → tokens.dropLast[k]? = tokens[k]? := by
    intro k hk
    rw [List.getElem?_dropLast, if_pos (by omega)]
  have htail : ∀ k, tokens.tail[k]? = tokens[k + 1]? := fun k => List.getElem?_tail
  constructor
  · rintro (⟨i, j, hij, hj, heq⟩ | ⟨i, j, hij, hj, heq⟩)
    · rw [hdrop i (by omega), hdrop j (by omega)] at heq
      exact ⟨i, j, hij, by omega, Or.inl heq⟩
    · rw [htail, htail] at heq
      exact ⟨i, j, hij, by omega, Or.inr heq⟩
  · rintro ⟨i, j, hij, hj, heq | heq⟩
    · exact Or.inl ⟨i, j, hij, by omega, by rw [hdrop i (by omega), hdrop j (by omega), heq]⟩
    · exact Or.inr ⟨i, j, hij, by omega, by rw [htail, htail, heq]⟩

lemma repeated_of_words {tokens : List Word} {i j : ℕ} (hij : i < j) (hj : j + 1 < tokens.length)
    (h : tokens[i]? = tokens[j]? ∨ tokens[i + 1]? = tokens[j + 1]?) :
    ∃ t : SlotPattern, t.Repeated tokens := by
  have hstart : ∀ {t : SlotPattern} {k : ℕ}, t.length = 2 → k + 1 < tokens.length →
      ((tokens.drop k).take 2).eraseIdx t.pos = t.others → k ∈ t.starts tokens := by
    intro t k hlen hk hothers
    refine List.mem_filter.mpr ⟨List.mem_range.mpr (by omega), ?_⟩
    rw [hlen, decide_eq_true_eq]
    exact hothers
  rcases h with heq | heq
  · rw [List.getElem?_eq_getElem (by omega), List.getElem?_eq_getElem (by omega),
      Option.some.injEq] at heq
    refine ⟨⟨2, 1, [tokens[i]]⟩, le_rfl, by simp, by simp, ?_⟩
    refine two_le_length_of_mem (hstart rfl (by omega) ?_) (hstart rfl hj ?_) hij.ne
    · rw [take_two (by omega)]
      rfl
    · rw [take_two hj, heq]
      rfl
  · rw [List.getElem?_eq_getElem (by omega), List.getElem?_eq_getElem (by omega),
      Option.some.injEq] at heq
    refine ⟨⟨2, 0, [tokens[i + 1]]⟩, le_rfl, by simp, by simp, ?_⟩
    refine two_le_length_of_mem (hstart rfl (by omega) ?_) (hstart rfl hj ?_) hij.ne
    · rw [take_two (by omega)]
      rfl
    · rw [take_two hj, heq]
      rfl

lemma selectedOccurrences_eq_nil_iff {tokens : List Word} (hsize : tokens.length < 2 ^ 32) :
    selectedOccurrences tokens = [] ↔ tokens.dropLast.Nodup ∧ tokens.tail.Nodup := by
  rw [← not_iff_not, not_nodup_iff, ← ne_eq, List.ne_nil_iff_exists_cons]
  constructor
  · rintro ⟨occ, rest, hocc⟩
    have hmem : occ ∈ selectedOccurrences tokens := by rw [hocc]; exact List.mem_cons_self
    exact repeated_words ((repeated_iff hsize).mpr ⟨occ, hmem, rfl⟩)
  · rintro ⟨i, j, hij, hj, heq⟩
    obtain ⟨t, ht⟩ := repeated_of_words hij hj heq
    obtain ⟨occ, hmem, -⟩ := (repeated_iff hsize).mp ht
    exact List.exists_cons_of_ne_nil (List.ne_nil_of_mem hmem)

/-- An n-gram that starts at two positions makes its first word come twice before the end. -/
lemma ngram_words {tokens p : List Word} (h2 : 2 ≤ p.length) (hrep : 2 ≤ ngramStarts tokens p) :
    ∃ i j, i < j ∧ j + 1 < tokens.length ∧
      (tokens[i]? = tokens[j]? ∨ tokens[i + 1]? = tokens[j + 1]?) := by
  rw [ngramStarts, List.countP_eq_length_filter] at hrep
  have hsorted : ((List.range tokens.length).filter fun start => p <+: tokens.drop start).Pairwise
      (· < ·) := List.pairwise_lt_range.filter _
  have hfirst : ∀ start ∈ (List.range tokens.length).filter fun start => p <+: tokens.drop start,
      start + 1 < tokens.length ∧ tokens[start]? = p[0]? := by
    intro start hstart
    obtain ⟨rest, hrest⟩ := of_decide_eq_true (List.mem_filter.mp hstart).2
    have hlen := congrArg List.length hrest
    rw [List.length_append, List.length_drop] at hlen
    refine ⟨by omega, ?_⟩
    have hget := congrArg (fun l => l[0]?) hrest
    simp only [List.getElem?_drop, Nat.add_zero] at hget
    rw [← hget, List.getElem?_append_left (by omega)]
  rcases hstarts : (List.range tokens.length).filter fun start => p <+: tokens.drop start with
    - | ⟨a, - | ⟨b, rest⟩⟩
  · simp [hstarts] at hrep
  · simp [hstarts] at hrep
  · rw [hstarts] at hsorted hfirst
    obtain ⟨hfita, ha⟩ := hfirst a (by simp)
    obtain ⟨hfitb, hb⟩ := hfirst b (by simp)
    exact ⟨a, b, List.rel_of_pairwise_cons hsorted (by simp), hfitb, Or.inl (ha.trans hb.symm)⟩

lemma phraseCount_eq_zero_iff {tokens : List Word} :
    phraseCount tokens = 0 ↔ selectedOccurrences tokens = [] ∧ registeredNgrams tokens = [] := by
  rw [phraseCount, Nat.add_eq_zero_iff, Finset.card_eq_zero, Finset.card_eq_zero,
    List.toFinset_eq_empty_iff, List.toFinset_eq_empty_iff, List.map_eq_nil_iff]

lemma isNgram_pair {tokens : List Word} (h : 2 ≤ tokens.length) : ∃ p, IsNgram tokens p :=
  ⟨tokens.take 2, by rw [List.length_take]; omega, by rw [List.length_take]; omega,
    (List.take_prefix 2 tokens).isInfix⟩

/-- With few n-grams every one of them is a phrase. -/
lemma isPhrase_of_few {tokens p : List Word} (hp : IsNgram tokens p)
    (hfew : {q | IsNgram tokens q}.ncard < 1000) : IsPhrase tokens p := by
  have hpos : 0 < ngramStarts tokens p := by
    rw [← count_buildNgrams hp.two_le hp.le_five, List.count_pos_iff, mem_buildNgrams_iff]
    exact hp
  rcases Nat.lt_or_ge 1 (ngramStarts tokens p) with h | h
  · exact ⟨hp, Or.inl h⟩
  · exact ⟨hp, Or.inr ⟨by omega, hfew⟩⟩

/-- The number of phrases in terms of the tokens alone. -/
lemma phraseCount_eq_zero_iff_nodup {tokens : List Word} (hsize : tokens.length < 2 ^ 32) :
    phraseCount tokens = 0 ↔ tokens.length ≤ 1 ∨
      (1000 ≤ {p | IsNgram tokens p}.ncard ∧ tokens.dropLast.Nodup ∧ tokens.tail.Nodup) := by
  rw [phraseCount_eq_zero_iff, selectedOccurrences_eq_nil_iff hsize, List.eq_nil_iff_forall_not_mem]
  simp only [mem_registeredNgrams, registered_iff_isPhrase hsize]
  constructor
  · rintro ⟨hnodup, hnone⟩
    by_contra hcond
    rw [not_or] at hcond
    obtain ⟨p, hp⟩ := isNgram_pair (show 2 ≤ tokens.length by omega)
    have hfew : {q | IsNgram tokens q}.ncard < 1000 := by
      by_contra hmany
      exact hcond.2 ⟨by omega, hnodup⟩
    exact hnone p (isPhrase_of_few hp hfew)
  · rintro (hone | ⟨hmany, hnodup⟩)
    · refine ⟨⟨?_, ?_⟩, fun p hp => ?_⟩
      · exact List.nodup_iff_getElem?_ne_getElem?.mpr fun i j hij hj => by
          rw [List.length_dropLast] at hj
          omega
      · exact List.nodup_iff_getElem?_ne_getElem?.mpr fun i j hij hj => by
          rw [List.length_tail] at hj
          omega
      · have hle := hp.ngram.within.length_le
        have h2 := hp.ngram.two_le
        omega
    · refine ⟨hnodup, fun p hp => ?_⟩
      rcases hp.frequent with hrep | ⟨-, hfew⟩
      · exact not_nodup_iff.mpr (ngram_words hp.ngram.two_le hrep) hnodup
      · omega

/-- No phrase at all: a text of at most one token, or one with so many different n-grams that
single ones do not count, in which all tokens but the last are different and all but the first. -/
theorem minePhrases_eq_nil_iff (text : List UInt8) (o : Orders) {main : MainDict}
    (h : main.Coherent) (hsize : (tokenizeRaw text).length < 2 ^ 32) :
    (minePhrases o (tokenizeRaw text) main).phraseDecode = [] ↔
      (tokenizeRaw text).length ≤ 1 ∨
        (1000 ≤ {p | IsNgram (tokenizeRaw text) p}.ncard ∧
          (tokenizeRaw text).dropLast.Nodup ∧ (tokenizeRaw text).tail.Nodup) := by
  have hcount := (minePhrases_sizes (fun _ hw => tokenizeRaw_isToken hw) o h :
    (minePhrases o (tokenizeRaw text) main).phraseDecode.length = _ ∧ _).1
  rw [← List.length_eq_zero_iff, hcount]
  exact phraseCount_eq_zero_iff_nodup hsize

/-- Different tokens make four different n-grams at every position but the last ones. -/
lemma le_ncard_of_nodup {tokens : List Word} (h : tokens.Nodup) :
    4 * (tokens.length - 4) ≤ {p | IsNgram tokens p}.ncard := by
  set window := fun x : ℕ × ℕ => (tokens.drop x.1).take (x.2 + 2) with hwindow
  set places := Finset.range (tokens.length - 4) ×ˢ Finset.range 4 with hplaces
  have hmem : ∀ {x}, x ∈ places → x.1 + 4 < tokens.length ∧ x.2 < 4 := by
    intro x hx
    rw [hplaces, Finset.mem_product, Finset.mem_range, Finset.mem_range] at hx
    omega
  have hlen : ∀ {x}, x ∈ places → (window x).length = x.2 + 2 := by
    intro x hx
    have hbound := hmem hx
    rw [hwindow, List.length_take, List.length_drop]
    omega
  have hinj : Set.InjOn window places := by
    rintro ⟨i, n⟩ hx ⟨j, m⟩ hy heq
    have hn : n = m := by
      have hlength := congrArg List.length heq
      rw [hlen hx, hlen hy] at hlength
      omega
    have hi := (hmem hx).1
    have hj := (hmem hy).1
    have hfirst := congrArg (fun l => l[0]?) heq
    simp only [hwindow, List.getElem?_take, List.getElem?_drop, Nat.add_zero] at hfirst
    rw [if_pos (by omega), if_pos (by omega), List.getElem?_eq_getElem (by omega),
      List.getElem?_eq_getElem (by omega), Option.some.injEq] at hfirst
    rw [hn, (h.getElem_inj_iff).mp hfirst]
  have hsub : (places.image window : Set (List Word)) ⊆ {p | IsNgram tokens p} := by
    intro p hp
    obtain ⟨x, hx, rfl⟩ := Finset.mem_image.mp hp
    have hbound := hmem hx
    refine ⟨by rw [hlen hx]; omega, by rw [hlen hx]; omega, ?_⟩
    exact (List.take_prefix _ _).isInfix.trans (List.drop_suffix _ _).isInfix
  have hcard : (places.image window).card = 4 * (tokens.length - 4) := by
    rw [Finset.card_image_of_injOn hinj, hplaces, Finset.card_product, Finset.card_range,
      Finset.card_range, Nat.mul_comm]
  rw [← hcard, ← Set.ncard_coe_finset]
  exact Set.ncard_le_ncard hsub (finite_ngrams tokens)

/-- The 254 words `aa`, `ab`, and so on to `pn`. -/
def differentWords : List Word :=
  (List.range 254).map fun i => [UInt8.ofNat (97 + i / 16), UInt8.ofNat (97 + i % 16)]

def differentText : List UInt8 := differentWords.flatMap fun w => w ++ [32]

lemma tokenizeRaw_differentText : tokenizeRaw differentText = differentWords := by decide +kernel

lemma many_differentWords : 1000 ≤ {p | IsNgram differentWords p}.ncard ∧
    differentWords.dropLast.Nodup ∧ differentWords.tail.Nodup := by
  have hnodup : differentWords.Nodup := by
    refine List.Nodup.map_on (fun i hi j hj heq => ?_) List.nodup_range
    simp only [List.mem_range] at hi hj
    simp only [List.cons.injEq, and_true, ← UInt8.toNat_inj, UInt8.toNat_ofNat'] at heq
    omega
  refine ⟨?_, hnodup.sublist (List.dropLast_sublist _), hnodup.sublist (List.tail_sublist _)⟩
  have hlen : differentWords.length = 254 := by simp [differentWords]
  have hmany := le_ncard_of_nodup hnodup
  rwa [hlen] at hmany

theorem minePhrases_eq_nil_different :
    (minePhrases .same (tokenizeRaw differentText) ⟨∅, []⟩).phraseDecode = [] := by
  refine (minePhrases_eq_nil_iff differentText .same coherent_empty ?_).mpr (Or.inr ?_)
  · simp [tokenizeRaw_differentText, differentWords]
  · rw [tokenizeRaw_differentText]
    exact many_differentWords

end HashCompress.PhraseFree
