import HashCompress.PhraseSelection

/-!
# The phrases behind entries and nodes

Each entry of the phrase list belongs to the phrase that was added with it, and each node of the
trie to the phrases that were added on its path: the last one gave it its codes and its number, the
last one with a wildcard its slot.
-/
namespace HashCompress.PhraseMining

open WordText TallyMap KeyTrie CodeTables

/-! ### Lists related element by element -/

lemma forall₂_getElem? {α β : Type} {R : α → β → Prop} {xs : List α} {ys : List β}
    (h : List.Forall₂ R xs ys) {i : ℕ} {y : β} (hy : ys[i]? = some y) :
    ∃ x, xs[i]? = some x ∧ R x y := by
  obtain ⟨hi, rfl⟩ := List.getElem?_eq_some_iff.mp hy
  have hi' : i < xs.length := h.length_eq ▸ hi
  exact ⟨_, List.getElem?_eq_getElem hi', h.get hi' hi⟩

lemma forall₂_of_mem_left {α β : Type} {R : α → β → Prop} {xs : List α} {ys : List β}
    (h : List.Forall₂ R xs ys) {x : α} (hx : x ∈ xs) : ∃ y ∈ ys, R x y := by
  obtain ⟨i, hi, rfl⟩ := List.mem_iff_getElem.mp hx
  have hi' : i < ys.length := h.length_eq ▸ hi
  exact ⟨_, List.getElem_mem hi', h.get hi hi'⟩

lemma forall₂_of_mem_right {α β : Type} {R : α → β → Prop} {xs : List α} {ys : List β}
    (h : List.Forall₂ R xs ys) {y : β} (hy : y ∈ ys) : ∃ x ∈ xs, R x y := by
  obtain ⟨i, hi, rfl⟩ := List.mem_iff_getElem.mp hy
  have hi' : i < xs.length := h.length_eq ▸ hi
  exact ⟨_, List.getElem_mem hi', h.get hi' hi⟩

/-! ### One addition -/

/-- A phrase that a pass adds: its words, with an asterisk at the slot, and the slot. -/
structure Mark where
  words : List Word
  slot : Option ℕ
  deriving DecidableEq

/-- The path of the phrase in the trie, where every asterisk of a wildcard phrase is left out. -/
def Mark.path (m : Mark) : List Word :=
  if m.slot.isSome then m.words.filter (· != star) else m.words

/-- What a pass makes of a word: an asterisk of a wildcard phrase gets the placeholder. -/
def Mark.CodeFor (m : Mark) (decode : List Word) (w : Word) (code : UInt32) : Prop :=
  if m.slot.isSome ∧ w = star then code = 4294967295 else decode[code.toNat]? = some w

structure Mark.Entry (m : Mark) (decode : List Word) (e : PhraseInfo) : Prop where
  hasWildcard : e.hasWildcard = m.slot.isSome
  wildcardPos : e.wildcardPos = m.slot.getD 0
  codes : List.Forall₂ (m.CodeFor decode) m.words e.wordCodes

/-- What one addition changes besides what `Adds` says: the codes and the slot. -/
structure Marks (s s' : MiningState) (m : Mark) : Prop where
  entry : ∃ e, s'.phraseDecode = s.phraseDecode ++ [e] ∧
    (s'.phraseTrieRoot.infoAt {} m.path).wordCodes = e.wordCodes ∧
    (s'.main.decode.length ≤ 2 ^ 32 → m.Entry s'.main.decode e)
  wildcardPos : (s'.phraseTrieRoot.infoAt {} m.path).wildcardPos =
    m.slot.getD (s.phraseTrieRoot.infoAt {} m.path).wildcardPos

lemma Mark.Entry.mono {m : Mark} {decode decode' : List Word} {e : PhraseInfo}
    (hgrow : decode <+: decode') (h : m.Entry decode e) : m.Entry decode' e := by
  refine ⟨h.hasWildcard, h.wildcardPos, h.codes.imp fun w code hcode => ?_⟩
  unfold Mark.CodeFor at hcode ⊢
  split_ifs at hcode ⊢
  · exact hcode
  · exact getElem?_mono hgrow hcode

lemma codesOf_placeholder (skip : Word → Bool) (d : MainDict) (words : List Word) :
    List.Forall₂ (fun w code => skip w = true → code = 4294967295) words (codesOf skip d words).1 := by
  induction words generalizing d with
  | nil => exact .nil
  | cons w words ih =>
    unfold codesOf
    cases hskip : skip w with
    | true => exact .cons (fun _ => rfl) (ih d)
    | false => exact .cons (fun hno => by rw [hskip] at hno; cases hno) (ih _)

lemma addRegularPhrase_marks {s : MiningState} (h : s.main.Coherent) (ngram : List UInt8)
    (frequency : UInt32) :
    Marks s (addRegularPhrase s ngram frequency) ⟨splitWords ngram, none⟩ := by
  obtain ⟨-, -, -, hcodes⟩ := codesOf_spec (fun _ => false) h (splitWords ngram)
  have hpath : Mark.path ⟨splitWords ngram, none⟩ = splitWords ngram := rfl
  refine ⟨⟨_, rfl, ?_, fun hle => ⟨rfl, rfl, ?_⟩⟩, ?_⟩
  · simp [addRegularPhrase, Trie.infoAt_modifyAt, hpath]
  · refine (hcodes hle).imp fun w code hcode => ?_
    rw [Mark.CodeFor, if_neg (by simp)]
    exact hcode rfl
  · simp [addRegularPhrase, Trie.infoAt_modifyAt, hpath]

lemma addWildcardPhrase_marks {s : MiningState} (h : s.main.Coherent) (pattern : List UInt8)
    (wildcardPos : ℕ) (words : List (Sigma fun _ : Word => UInt32)) (totalOccurrences : UInt32) :
    Marks s (addWildcardPhrase s pattern wildcardPos words totalOccurrences)
      ⟨splitWords pattern, some wildcardPos⟩ := by
  obtain ⟨hco, -, -, hcodes⟩ := codesOf_spec (· == star) h (splitWords pattern)
  have hplace := codesOf_placeholder (· == star) s.main (splitWords pattern)
  have hpath : Mark.path ⟨splitWords pattern, some wildcardPos⟩ =
      (splitWords pattern).filter (· != star) := rfl
  -- The wildcard words come into the dictionary behind the words of the pattern.
  have hgrow : (codesOf (· == star) s.main (splitWords pattern)).2.decode <+:
      (addWildcardPhrase s pattern wildcardPos words totalOccurrences).main.decode := by
    obtain ⟨-, hdec⟩ := recordWildcards_spec hco
      (s.phraseTrieRoot.infoAt {} ((splitWords pattern).filter (· != star))).wildcardCodes words
    exact hdec ▸ prefix_appendNew _ _
  refine ⟨⟨_, rfl, ?_, fun hle => ⟨rfl, rfl, ?_⟩⟩, ?_⟩
  · simp [addWildcardPhrase, Trie.infoAt_modifyAt, hpath]
  · refine hplace.mp (fun w code hskip hcode => ?_) (hcodes (hgrow.length_le.trans hle))
    unfold Mark.CodeFor
    split_ifs with hstar
    · exact hskip (by simp [hstar.2])
    · have hne : w ≠ star := fun heq => hstar ⟨rfl, heq⟩
      exact getElem?_mono hgrow (hcode (by simpa using hne))
  · simp [addWildcardPhrase, Trie.infoAt_modifyAt, hpath]

/-! ### The state after the marks of a run -/

/-- The last phrase on a path. -/
def lastMark (p : List Word) (ms : List Mark) : Option Mark := lastWith Mark.path p ms

/-- The slot that the wildcard phrases on a path leave at its node. -/
def slotAt (p : List Word) (ms : List Mark) : ℕ :=
  ms.foldl (fun pos m => if m.path = p then m.slot.getD pos else pos) 0

lemma slotAt_snoc (p : List Word) (ms : List Mark) (m : Mark) :
    slotAt p (ms ++ [m]) = if m.path = p then m.slot.getD (slotAt p ms) else slotAt p ms := by
  rw [slotAt, List.foldl_append]
  rfl

/-- A state that the additions of `ms` lead to: entries in their order, and nodes of the last ones. -/
structure Marked (ms : List Mark) (s : MiningState) : Prop where
  coherent : s.main.Coherent
  count : s.phraseDecode.length = ms.length
  entries : s.main.decode.length ≤ 2 ^ 32 →
    List.Forall₂ (fun m e => m.Entry s.main.decode e) ms s.phraseDecode
  node : s.phraseDecode.length ≤ 2 ^ 32 → ∀ p m, lastMark p ms = some m → ∃ i e,
    (s.phraseTrieRoot.infoAt {} p).phraseId.toNat = i ∧ ms[i]? = some m ∧
      s.phraseDecode[i]? = some e ∧ (s.phraseTrieRoot.infoAt {} p).wordCodes = e.wordCodes
  slot : ∀ p, (s.phraseTrieRoot.infoAt {} p).wildcardPos = slotAt p ms

lemma marked_nil {main : MainDict} (h : main.Coherent) (nonRepeated : UInt32) :
    Marked [] ⟨main, Trie.leaf {}, [], nonRepeated⟩ :=
  ⟨h, rfl, fun _ => .nil, by simp [lastMark, lastWith], fun p => by simp [slotAt]⟩

theorem Marked.snoc {ms : List Mark} {s s' : MiningState} {a : Addition} {m : Mark}
    (h : Marked ms s) (hadd : Adds s s' a) (hmark : Marks s s' m) (hpath : a.path = m.path) :
    Marked (ms ++ [m]) s' := by
  have hgrow : s.main.decode <+: s'.main.decode := by
    rw [hadd.decode]
    exact prefix_appendNew _ _
  have hother : ∀ p, ¬ m.path = p →
      s'.phraseTrieRoot.infoAt {} p = s.phraseTrieRoot.infoAt {} p :=
    fun p hp => hadd.other p fun heq => hp (hpath.symm.trans heq.symm)
  obtain ⟨e, hphrases, hcodes, hentry⟩ := hmark.entry
  refine ⟨hadd.coherent, ?_, fun hle => ?_, fun hle p last hlast => ?_, fun p => ?_⟩
  · rw [hphrases, List.length_append, List.length_append, h.count]
    rfl
  · rw [hphrases]
    refine List.rel_append ?_ (.cons (hentry hle) .nil)
    exact (h.entries (hgrow.length_le.trans hle)).imp fun m e he => he.mono hgrow
  · rw [hphrases, List.length_append, List.length_singleton] at hle
    rw [lastMark, lastWith_snoc] at hlast
    split_ifs at hlast with hp
    · subst hp
      cases hlast
      have hid : (UInt32.ofNat s.phraseDecode.length).toNat = s.phraseDecode.length :=
        UInt32.toNat_ofNat_of_lt' (by rw [UInt32.size]; omega)
      refine ⟨s.phraseDecode.length, e, ?_, ?_, ?_, hcodes⟩
      · rw [← hpath, hadd.phraseId, hid]
      · rw [h.count, List.getElem?_concat_length]
      · rw [hphrases, List.getElem?_concat_length]
    · obtain ⟨i, e', hid, hm, he, hcodes'⟩ := h.node (by omega) p last hlast
      refine ⟨i, e', ?_, getElem?_mono (List.prefix_append _ _) hm, ?_, ?_⟩
      · rw [hother p hp, hid]
      · rw [hphrases]
        exact getElem?_mono (List.prefix_append _ _) he
      · rw [hother p hp, hcodes']
  · rw [slotAt_snoc]
    split_ifs with hp
    · subst hp
      rw [hmark.wildcardPos, h.slot]
    · rw [hother p hp, h.slot]

def Job.mark (j : Job) : Mark := ⟨splitWords j.pattern, some j.pos⟩

/-- The frequent patterns, in the order in which the wildcard pass adds them. -/
def wildcardMarks (o : Orders) (tokens : List Word) : List Mark :=
  ((jobs o tokens).filter fun j => minPhraseFreq ≤ j.total).map Job.mark

def ngramMark (e : Sigma fun _ : List UInt8 => UInt32) : Mark := ⟨splitWords e.1, none⟩

def regularMarks (o : Orders) (tokens : List Word) : List Mark :=
  ((o.ngrams.run (ngramFreqs tokens).entries).filter fun e =>
    minPhraseFreq ≤ e.2 ∨ (e.2 = 1 ∧ (ngramFreqs tokens).entries.length < 1000)).map ngramMark

/-- The state after both passes. -/
theorem marked_minePhrases {tokens : List Word} (htok : ∀ w ∈ tokens, IsToken w) {main : MainDict}
    (h : main.Coherent) (o : Orders) :
    Marked (wildcardMarks o tokens ++ regularMarks o tokens) (minePhrases o tokens main) := by
  refine findRegularPhrases_induct ngramMark (fun e _ ms s hmarked => ?_)
    (findWildcardPhrases_induct Job.mark (fun j hj ms s hmarked => ?_) (marked_nil h 0))
  · exact hmarked.snoc (addRegularPhrase_adds hmarked.coherent e.1 e.2)
      (addRegularPhrase_marks hmarked.coherent e.1 e.2) rfl
  · exact hmarked.snoc
      (addWildcardPhrase_adds hmarked.coherent (star_mem_job htok hj) j.pos j.words j.total)
      (addWildcardPhrase_marks hmarked.coherent j.pattern j.pos j.words j.total) rfl

lemma slotAt_append_plain (p : List Word) (ms : List Mark) {plain : List Mark}
    (h : ∀ m ∈ plain, m.slot = none) : slotAt p (ms ++ plain) = slotAt p ms := by
  induction plain using List.reverseRecOn with
  | nil => rw [List.append_nil]
  | append_singleton plain m ih =>
    have hm := h m (List.mem_append_right _ List.mem_cons_self)
    rw [← List.append_assoc, slotAt_snoc, hm, Option.getD_none, ite_self]
    exact ih fun m' hm' => h m' (List.mem_append_left _ hm')

lemma slotAt_of_last {p : List Word} {ms : List Mark} (h : ∀ m ∈ ms, m.slot.isSome) {m : Mark}
    (hlast : lastMark p ms = some m) : m.slot = some (slotAt p ms) := by
  induction ms using List.reverseRecOn with
  | nil => simp [lastMark, lastWith] at hlast
  | append_singleton ms x ih =>
    rw [lastMark, lastWith_snoc] at hlast
    rw [slotAt_snoc]
    split_ifs at hlast ⊢ with hp
    · cases hlast
      obtain ⟨pos, hpos⟩ := Option.isSome_iff_exists.mp (h m (List.mem_append_right _ List.mem_cons_self))
      rw [hpos, Option.getD_some]
    · exact ih (fun m' hm' => h m' (List.mem_append_left _ hm')) hlast

/-! ### The marks in terms of the text -/

section Characterisation

variable {tokens : List Word} (htok : ∀ w ∈ tokens, IsToken w) (o : Orders)
include htok

lemma mem_wildcardMarks {m : Mark} : m ∈ wildcardMarks o tokens ↔
    ∃ occ ∈ selectedOccurrences tokens, m = ⟨occ.pattern, some occ.pos⟩ := by
  unfold wildcardMarks
  rw [List.mem_map]
  constructor
  · rintro ⟨j, hj, rfl⟩
    obtain ⟨occ, hocc, hkey, hpos⟩ := mem_selectedJobs htok o hj
    refine ⟨occ, hocc, ?_⟩
    rw [Job.mark, hkey, hpos, splitWords_pattern htok (mem_selectedOccurrences.mp hocc).1]
  · rintro ⟨occ, hocc, rfl⟩
    obtain ⟨j, hj, hkey, hpos⟩ := exists_selectedJob htok o hocc
    refine ⟨j, hj, ?_⟩
    rw [Job.mark, hkey, hpos, splitWords_pattern htok (mem_selectedOccurrences.mp hocc).1]

lemma mem_regularMarks {m : Mark} :
    m ∈ regularMarks o tokens ↔ ∃ p ∈ registeredNgrams tokens, m = ⟨p, none⟩ := by
  unfold regularMarks
  rw [List.mem_map]
  constructor
  · rintro ⟨e, he, rfl⟩
    obtain ⟨p, hp, rfl⟩ := (mem_selectedNgrams htok o).mp he
    exact ⟨p, hp, by rw [ngramMark, splitWords_ngram htok hp]⟩
  · rintro ⟨p, hp, rfl⟩
    refine ⟨_, (mem_selectedNgrams htok o).mpr ⟨p, hp, rfl⟩, ?_⟩
    rw [ngramMark, splitWords_ngram htok hp]

lemma exists_wildcardMark {p : List Word} :
    (∃ m ∈ wildcardMarks o tokens, m.path = p) ↔ Starred tokens p := by
  constructor
  · rintro ⟨m, hm, rfl⟩
    obtain ⟨occ, hocc, rfl⟩ := (mem_wildcardMarks htok o).mp hm
    obtain ⟨hmem, hsel⟩ := mem_selectedOccurrences.mp hocc
    exact ⟨occ, hmem, hsel, rfl⟩
  · rintro ⟨occ, hmem, hsel, rfl⟩
    exact ⟨_, (mem_wildcardMarks htok o).mpr ⟨occ, mem_selectedOccurrences.mpr ⟨hmem, hsel⟩, rfl⟩, rfl⟩

lemma exists_regularMark {p : List Word} :
    (∃ m ∈ regularMarks o tokens, m.path = p) ↔ Registered tokens p := by
  rw [← mem_registeredNgrams]
  constructor
  · rintro ⟨m, hm, rfl⟩
    obtain ⟨q, hq, rfl⟩ := (mem_regularMarks htok o).mp hm
    exact hq
  · intro hp
    exact ⟨_, (mem_regularMarks htok o).mpr ⟨p, hp, rfl⟩, rfl⟩

/-- The node of a frequent pattern keeps the slot of the last one, whatever the regular pass does. -/
lemma wildcardPos_minePhrases {main : MainDict} (h : main.Coherent) {p : List Word} {m : Mark}
    (hlast : lastMark p (wildcardMarks o tokens) = some m) :
    m.slot = some ((minePhrases o tokens main).phraseTrieRoot.infoAt {} p).wildcardPos := by
  have hplain : ∀ m ∈ regularMarks o tokens, m.slot = none := by
    intro m hm
    obtain ⟨p, -, rfl⟩ := (mem_regularMarks htok o).mp hm
    rfl
  have hwild : ∀ m ∈ wildcardMarks o tokens, m.slot.isSome := by
    intro m hm
    obtain ⟨occ, -, rfl⟩ := (mem_wildcardMarks htok o).mp hm
    rfl
  rw [(marked_minePhrases htok h o).slot, slotAt_append_plain p _ hplain]
  exact slotAt_of_last hwild hlast

/-- The last phrase on the path of a registered n-gram is the n-gram. -/
lemma lastMark_registered {p : List Word} (hp : Registered tokens p) :
    lastMark p (wildcardMarks o tokens ++ regularMarks o tokens) = some ⟨p, none⟩ := by
  obtain ⟨m, hm⟩ := Option.isSome_iff_exists.mp
    (lastWith_isSome.mpr ((exists_regularMark htok o).mpr hp))
  obtain ⟨hmem, hpath⟩ := mem_of_lastWith hm
  obtain ⟨q, -, rfl⟩ := (mem_regularMarks htok o).mp hmem
  obtain rfl : q = p := hpath
  rw [lastMark, lastWith_append, hm, Option.some_or]

/-- On every other path it is the last frequent pattern. -/
lemma lastMark_starred {p : List Word} (hp : ¬ Registered tokens p) :
    lastMark p (wildcardMarks o tokens ++ regularMarks o tokens) =
      lastMark p (wildcardMarks o tokens) := by
  have hnone : lastWith Mark.path p (regularMarks o tokens) = none := by
    rw [← Option.not_isSome_iff_eq_none, lastWith_isSome, exists_regularMark htok o]
    exact hp
  rw [lastMark, lastWith_append, hnone, Option.none_or]
  rfl

/-- The entry that the node of a path refers to is that of the last phrase on the path. -/
lemma entry_minePhrases {main : MainDict} (h : main.Coherent) {p : List Word} {m : Mark}
    (hcount : (minePhrases o tokens main).phraseDecode.length ≤ 2 ^ 32)
    (hsize : (minePhrases o tokens main).main.decode.length ≤ 2 ^ 32)
    (hlast : lastMark p (wildcardMarks o tokens ++ regularMarks o tokens) = some m) :
    ∃ e, (minePhrases o tokens main).phraseDecode[
        ((minePhrases o tokens main).phraseTrieRoot.infoAt {} p).phraseId.toNat]? = some e ∧
      ((minePhrases o tokens main).phraseTrieRoot.infoAt {} p).wordCodes = e.wordCodes ∧
      m.Entry (minePhrases o tokens main).main.decode e := by
  have hmarked := marked_minePhrases htok h o
  obtain ⟨i, e, hid, hm, he, hcodes⟩ := hmarked.node hcount p m hlast
  refine ⟨e, by rw [hid, he], hcodes, ?_⟩
  obtain ⟨hi, rfl⟩ := List.getElem?_eq_some_iff.mp hm
  obtain ⟨hi', rfl⟩ := List.getElem?_eq_some_iff.mp he
  exact (hmarked.entries hsize).get hi hi'

end Characterisation

end HashCompress.PhraseMining
