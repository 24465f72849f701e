import HashCompress.PhraseSelection
import HashCompress.Tokenizer

/-!
# The wildcard pass counts exactly

A pattern of the pass is a length, a slot and the words at the other positions. The pass merges the
patterns into string keys, in which the slot is one asterisk among others; the entries that it
appends are still one for each repeated pattern.
-/
namespace HashCompress.PhraseMining

open WordText TallyMap KeyTrie CodeTables

structure SlotPattern where
  length : ℕ
  pos : ℕ
  others : List Word
  deriving DecidableEq

/-- Where the pattern matches, whatever word stands in the slot. -/
def SlotPattern.starts (t : SlotPattern) (tokens : List Word) : List ℕ :=
  (List.range (tokens.length + 1 - t.length)).filter fun start =>
    ((tokens.drop start).take t.length).eraseIdx t.pos = t.others

/-- A pattern of two to five words that matches at two or more positions. -/
structure SlotPattern.Repeated (t : SlotPattern) (tokens : List Word) : Prop where
  two_le : 2 ≤ t.length
  le_five : t.length ≤ 5
  pos_lt : t.pos < t.length
  repeated : 2 ≤ (t.starts tokens).length

def Occurrence.slotPattern (o : Occurrence) : SlotPattern :=
  ⟨o.window.length, o.pos, o.window.eraseIdx o.pos⟩

/-- What an entry says about its pattern. -/
structure EntryFor (tokens : List Word) (e : PhraseInfo) (t : SlotPattern) : Prop where
  frequency : e.frequency.toNat = (t.starts tokens).length
  hasWildcard : e.hasWildcard = true
  wildcardPos : e.wildcardPos = t.pos
  wordCodes : e.wordCodes.length = t.length

/-! ### The number of occurrences -/

lemma set_eq_set_iff {w v : List Word} {i : ℕ} (hi : i < v.length) (x : Word) :
    w.set i x = v.set i x ↔ w.length = v.length ∧ w.eraseIdx i = v.eraseIdx i := by
  constructor
  · intro heq
    have hlen := congrArg List.length heq
    have herase := congrArg (fun l => l.eraseIdx i) heq
    simp only [List.length_set, List.eraseIdx_set_eq] at hlen herase
    exact ⟨hlen, herase⟩
  · rintro ⟨hlen, herase⟩
    rw [← List.insertIdx_eraseIdx_self (by omega), ← List.insertIdx_eraseIdx_self (by omega), herase]

lemma countP_flatMap_ite {α β : Type*} {p : β → Bool} {f : α → List β} {q : α → Prop}
    [DecidablePred q] {l : List α} (h : ∀ a ∈ l, (f a).countP p = if q a then 1 else 0) :
    (l.flatMap f).countP p = l.countP fun a => q a := by
  induction l with
  | nil => rfl
  | cons a l ih =>
    rw [List.flatMap_cons, List.countP_append, h a List.mem_cons_self,
      ih fun b hb => h b (List.mem_cons_of_mem _ hb), List.countP_cons]
    split_ifs <;> simp_all [Nat.add_comm]

/-- Among the occurrences in one window at most one has a given pattern. -/
lemma countP_window {o : Occurrence} (hpos : o.pos < o.window.length) (window : List Word) :
    ((List.range window.length).map fun pos => (⟨window, pos⟩ : Occurrence)).countP
        (fun o' => o'.pos = o.pos ∧ o'.pattern = o.pattern) =
      if window.length = o.window.length ∧ window.eraseIdx o.pos = o.window.eraseIdx o.pos then 1
      else 0 := by
  rw [List.countP_map]
  have hsame := set_eq_set_iff (w := window) hpos star
  split_ifs with hmatch
  · have hone : (List.range window.length).count o.pos = 1 :=
      List.count_eq_one_of_mem List.nodup_range (List.mem_range.mpr (by omega))
    rw [← hone, List.count_eq_countP]
    refine List.countP_congr fun pos _ => ?_
    simp only [Function.comp_apply, decide_eq_true_eq, beq_iff_eq]
    constructor
    · exact fun h => h.1
    · rintro rfl
      exact ⟨rfl, hsame.mpr hmatch⟩
  · rw [List.countP_eq_zero]
    intro pos _
    simp only [Function.comp_apply, decide_eq_true_eq]
    rintro ⟨rfl, hpattern⟩
    exact hmatch (hsame.mp hpattern)

/-- The occurrences with windows of one length. -/
lemma countP_windows {o : Occurrence} (hpos : o.pos < o.window.length) (tokens : List Word)
    (phraseLen : ℕ) :
    ((List.range (tokens.length + 1 - phraseLen)).flatMap fun start =>
      (List.range phraseLen).map fun pos =>
        (⟨(tokens.drop start).take phraseLen, pos⟩ : Occurrence)).countP
        (fun o' => o'.pos = o.pos ∧ o'.pattern = o.pattern) =
      if phraseLen = o.window.length then (o.slotPattern.starts tokens).length else 0 := by
  rw [countP_flatMap_ite (q := fun start => phraseLen = o.window.length ∧
    ((tokens.drop start).take phraseLen).eraseIdx o.pos = o.window.eraseIdx o.pos)]
  · split_ifs with hlen
    · subst hlen
      rw [SlotPattern.starts, ← List.countP_eq_length_filter]
      refine List.countP_congr fun start _ => ?_
      simp only [decide_eq_true_eq, true_and]
      rfl
    · simp [hlen]
  · intro start hstart
    have hwindow := length_window (List.mem_range.mp hstart)
    have hcount := countP_window hpos ((tokens.drop start).take phraseLen)
    rwa [hwindow] at hcount

lemma patternCount_eq {tokens : List Word} {o : Occurrence} (ho : o ∈ wildcardOccurrences tokens) :
    patternCount tokens o = (o.slotPattern.starts tokens).length := by
  obtain ⟨phraseLen, start, h2, h5, hfit, hpos, hwindow⟩ := mem_wildcardOccurrences_iff.mp ho
  have hlen : o.window.length = phraseLen := by
    rw [hwindow]
    exact length_window (by omega)
  rw [patternCount, ← List.countP_eq_length_filter, wildcardOccurrences, List.countP_flatMap]
  have hsum : (List.range' 2 4).map (List.countP (fun o' : Occurrence =>
      o'.pos = o.pos ∧ o'.pattern = o.pattern) ∘ fun phraseLen =>
        (List.range (tokens.length + 1 - phraseLen)).flatMap fun start =>
          (List.range phraseLen).map fun pos => ⟨(tokens.drop start).take phraseLen, pos⟩) =
      (List.range' 2 4).map fun n =>
        if n = o.window.length then (o.slotPattern.starts tokens).length else 0 :=
    List.map_congr_left fun n _ => countP_windows (by omega) tokens n
  rw [hsum, hlen]
  interval_cases phraseLen <;> simp [List.range']

lemma length_starts_lt {tokens : List Word} (hsize : tokens.length < 2 ^ 32) {t : SlotPattern}
    (h2 : 2 ≤ t.length) : (t.starts tokens).length < 2 ^ 32 := by
  have hle : (t.starts tokens).length ≤ tokens.length + 1 - t.length :=
    (List.length_filter_le _ _).trans_eq List.length_range
  omega

/-- A repeated pattern is that of a selected occurrence, and the other way round. -/
lemma repeated_iff {tokens : List Word} (hsize : tokens.length < 2 ^ 32) {t : SlotPattern} :
    t.Repeated tokens ↔ ∃ occ ∈ selectedOccurrences tokens, occ.slotPattern = t := by
  constructor
  · intro h
    have hpos := h.pos_lt
    obtain ⟨start, hstart⟩ := List.exists_mem_of_length_pos (by have := h.repeated; omega :
      0 < (t.starts tokens).length)
    obtain ⟨hrange, hmatch⟩ := List.mem_filter.mp hstart
    rw [decide_eq_true_eq] at hmatch
    have hlen := length_window (List.mem_range.mp hrange)
    rw [List.mem_range] at hrange
    have heq : (⟨(tokens.drop start).take t.length, t.pos⟩ : Occurrence).slotPattern = t := by
      rw [Occurrence.slotPattern, hlen, hmatch]
    have hocc : (⟨(tokens.drop start).take t.length, t.pos⟩ : Occurrence) ∈
        wildcardOccurrences tokens :=
      mem_wildcardOccurrences_iff.mpr
        ⟨t.length, start, h.two_le, h.le_five, by omega, h.pos_lt, rfl⟩
    refine ⟨_, mem_selectedOccurrences.mpr ⟨hocc, ?_⟩, heq⟩
    rw [Selected, patternCount_eq hocc, heq, Nat.mod_eq_of_lt (length_starts_lt hsize h.two_le)]
    exact h.repeated
  · rintro ⟨occ, hsel, rfl⟩
    obtain ⟨hocc, hcount⟩ := mem_selectedOccurrences.mp hsel
    obtain ⟨phraseLen, start, h2, h5, hfit, hpos, hwindow⟩ := mem_wildcardOccurrences_iff.mp hocc
    have hlen : occ.slotPattern.length = phraseLen := by
      rw [Occurrence.slotPattern, hwindow]
      exact length_window (by omega)
    rw [Selected, patternCount_eq hocc, Nat.mod_eq_of_lt (length_starts_lt hsize (by omega))]
      at hcount
    exact ⟨by omega, by omega, hpos.trans_eq hlen.symm, hcount⟩

/-! ### The appended entries -/

/-- The pattern that a job analyses. -/
def Job.slotPattern (j : Job) : SlotPattern :=
  ⟨(splitWords j.pattern).length, j.pos, (splitWords j.pattern).eraseIdx j.pos⟩

section Tokens

variable {tokens : List Word} (htok : ∀ w ∈ tokens, IsToken w) (o : Orders)
include htok

lemma slotPattern_of_occurrence {j : Job} {occ : Occurrence} (hocc : occ ∈ wildcardOccurrences tokens)
    (hkey : j.pattern = joinWords occ.pattern) (hpos : j.pos = occ.pos) :
    j.slotPattern = occ.slotPattern := by
  rw [Job.slotPattern, hkey, hpos, splitWords_pattern htok hocc, Occurrence.pattern,
    List.length_set, List.eraseIdx_set_eq, Occurrence.slotPattern]

/-- The key and the slot of a job can be read off its pattern, whatever asterisks the key holds. -/
lemma slotPatterns_nodup : (((jobs o tokens).filter fun j => minPhraseFreq ≤ j.total).map
    Job.slotPattern).Nodup := by
  have hkeys : (((jobs o tokens).filter fun j => minPhraseFreq ≤ j.total).map
      fun j => (j.pattern, j.pos)).Nodup :=
    (jobs_keys_nodup o tokens).sublist (List.filter_sublist.map _)
  refine hkeys.of_map.map_on fun j hj j' hj' heq => ?_
  obtain ⟨occ, hsel, hkey, hpos⟩ := mem_selectedJobs htok o hj
  obtain ⟨occ', hsel', hkey', hpos'⟩ := mem_selectedJobs htok o hj'
  have hocc := (mem_selectedOccurrences.mp hsel).1
  have hocc' := (mem_selectedOccurrences.mp hsel').1
  rw [slotPattern_of_occurrence htok hocc hkey hpos,
    slotPattern_of_occurrence htok hocc' hkey' hpos', Occurrence.slotPattern, Occurrence.slotPattern,
    SlotPattern.mk.injEq] at heq
  obtain ⟨hlen, hslot, hothers⟩ := heq
  have hpattern : occ.pattern = occ'.pattern := by
    rw [Occurrence.pattern, Occurrence.pattern, hslot]
    rw [hslot] at hothers
    exact (set_eq_set_iff (mem_wildcardOccurrences hocc').1 star).mpr ⟨hlen, hothers⟩
  refine List.inj_on_of_nodup_map hkeys hj hj' ?_
  rw [Prod.mk.injEq, hkey, hkey', hpos, hpos', hpattern]
  exact ⟨rfl, hslot⟩

lemma mem_slotPatterns (hsize : tokens.length < 2 ^ 32) {t : SlotPattern} :
    t ∈ ((jobs o tokens).filter fun j => minPhraseFreq ≤ j.total).map Job.slotPattern ↔
      t.Repeated tokens := by
  rw [repeated_iff hsize, List.mem_map]
  constructor
  · rintro ⟨j, hj, rfl⟩
    obtain ⟨occ, hsel, hkey, hpos⟩ := mem_selectedJobs htok o hj
    exact ⟨occ, hsel, (slotPattern_of_occurrence htok (mem_selectedOccurrences.mp hsel).1 hkey
      hpos).symm⟩
  · rintro ⟨occ, hsel, rfl⟩
    obtain ⟨j, hj, hkey, hpos⟩ := exists_selectedJob htok o hsel
    exact ⟨j, hj, slotPattern_of_occurrence htok (mem_selectedOccurrences.mp hsel).1 hkey hpos⟩

lemma total_toNat (hsize : tokens.length < 2 ^ 32) {j : Job} (hj : j ∈ jobs o tokens) :
    j.total.toNat = (j.slotPattern.starts tokens).length := by
  obtain ⟨occ, hocc, hkey, hpos⟩ := exists_occurrence hj
  have h2 : 2 ≤ occ.slotPattern.length := by
    have hpattern := (pattern_bounds hocc).1
    rwa [Occurrence.pattern, List.length_set] at hpattern
  rw [Job.total, total_eq htok hj hocc hkey hpos, patternCount_eq hocc,
    slotPattern_of_occurrence htok hocc hkey hpos, UInt32.toNat_ofNat',
    Nat.mod_eq_of_lt (length_starts_lt hsize h2)]

/-- One entry for each job that is frequent enough, in the order of the jobs. -/
lemma findWildcardPhrases_entries (hsize : tokens.length < 2 ^ 32) (s : MiningState) :
    ∃ entries, (findWildcardPhrases o tokens s).phraseDecode = s.phraseDecode ++ entries ∧
      List.Forall₂ (fun e j => EntryFor tokens e j.slotPattern) entries
        ((jobs o tokens).filter fun j => minPhraseFreq ≤ j.total) := by
  have hpass := @findWildcardPhrases_induct Job
    (fun js s' => ∃ entries, s'.phraseDecode = s.phraseDecode ++ entries ∧
      List.Forall₂ (fun e j => EntryFor tokens e j.slotPattern) entries js)
    id o tokens ?_ s ⟨[], (List.append_nil _).symm, .nil⟩
  · rwa [List.map_id] at hpass
  · rintro j hj js s' ⟨entries, hs', hentries⟩
    have hentry : EntryFor tokens ⟨(codesOf (· == star) s'.main (splitWords j.pattern)).1, j.total,
        true, j.pos⟩ j.slotPattern :=
      ⟨total_toNat htok o hsize hj, rfl, rfl, codesOf_length _ _ _⟩
    refine ⟨_, ?_, List.rel_append hentries (.cons hentry .nil)⟩
    rw [← List.append_assoc, ← hs']
    rfl

end Tokens

/-- For every text of fewer than 2^32 tokens, every order of traversal and every state before the
pass: the appended entries are, one by one, those of the repeated patterns. -/
theorem findWildcardPhrases_exact (text : List UInt8) (o : Orders) (s : MiningState)
    (hsize : (Tokenizer.tokenizeRaw text).length < 2 ^ 32) :
    ∃ entries patterns,
      (findWildcardPhrases o (Tokenizer.tokenizeRaw text) s).phraseDecode =
        s.phraseDecode ++ entries ∧
      patterns.Nodup ∧ (∀ t : SlotPattern, t ∈ patterns ↔ t.Repeated (Tokenizer.tokenizeRaw text)) ∧
      List.Forall₂ (EntryFor (Tokenizer.tokenizeRaw text)) entries patterns := by
  have htok : ∀ w ∈ Tokenizer.tokenizeRaw text, IsToken w :=
    fun w hw => Tokenizer.tokenizeRaw_isToken hw
  obtain ⟨entries, happend, hentries⟩ := findWildcardPhrases_entries htok o hsize s
  exact ⟨entries, _, happend, slotPatterns_nodup htok o, fun t => mem_slotPatterns htok o hsize,
    List.forall₂_map_right_iff.mpr hentries⟩

/-- The text `* a * a`, in which asterisks are tokens too. -/
def asteriskText : List UInt8 := [42, 32, 97, 32, 42, 32, 97]

theorem findWildcardPhrases_exact_asterisks :
    (⟨2, 0, [[97]]⟩ : SlotPattern).starts (Tokenizer.tokenizeRaw asteriskText) = [0, 2] ∧
      ∃ entries patterns, (findWildcardPhrases .same (Tokenizer.tokenizeRaw asteriskText)
          ⟨⟨∅, []⟩, Trie.leaf {}, [], 0⟩).phraseDecode = [] ++ entries ∧
        patterns.Nodup ∧
        (∀ t : SlotPattern, t ∈ patterns ↔ t.Repeated (Tokenizer.tokenizeRaw asteriskText)) ∧
        List.Forall₂ (EntryFor (Tokenizer.tokenizeRaw asteriskText)) entries patterns :=
  ⟨by decide, findWildcardPhrases_exact asteriskText .same ⟨⟨∅, []⟩, Trie.leaf {}, [], 0⟩
    (by decide)⟩

end HashCompress.PhraseMining
