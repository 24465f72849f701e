import HashCompress.PhraseMining

/-!
# What the mining passes leave behind

Each pass is a sequence of additions to the dictionary, the trie and the phrase list. The state
after any such sequence is described by the additions alone.
-/
namespace HashCompress.PhraseMining

open WordText TallyMap KeyTrie CodeTables

/-! ### The main dictionary -/

/-- The two directions of the dictionary fit together, the codes as long as 32 bits hold them. -/
structure MainDict.Coherent (d : MainDict) : Prop where
  keys : ∀ w, w ∈ d.encode ↔ w ∈ d.decode
  codes : d.decode.length ≤ 2 ^ 32 → ∀ w code, d.encode.lookup w = some code →
    d.decode[code.toNat]? = some w

lemma coherent_empty : MainDict.Coherent ⟨∅, []⟩ :=
  ⟨fun w => by simp, fun _ w code hw => by rw [AList.lookup_empty] at hw; cases hw⟩

lemma getElem?_mono {α : Type*} {l l' : List α} (h : l <+: l') {i : ℕ} {x : α}
    (hx : l[i]? = some x) : l'[i]? = some x := by
  obtain ⟨tail, rfl⟩ := h
  rw [List.getElem?_append_left (List.getElem?_eq_some_iff.mp hx).1, hx]

lemma codeOf_spec {d : MainDict} (h : d.Coherent) (w : Word) :
    (d.codeOf w).2.Coherent ∧ (d.codeOf w).2.decode = appendNew d.decode [w] ∧
      ((d.codeOf w).2.decode.length ≤ 2 ^ 32 →
        (d.codeOf w).2.decode[(d.codeOf w).1.toNat]? = some w) := by
  unfold MainDict.codeOf
  cases hw : d.encode.lookup w with
  | some code =>
    have hmem : w ∈ d.decode := (h.keys w).mp (AList.lookup_isSome.mp (by rw [hw]; rfl))
    refine ⟨h, ?_, fun hle => h.codes hle w code hw⟩
    simp [appendNew, hmem]
  | none =>
    have hmem : w ∉ d.decode := fun hm => AList.lookup_eq_none.mp hw ((h.keys w).mpr hm)
    have hcode : d.decode.length + 1 ≤ 2 ^ 32 → (UInt32.ofNat d.decode.length).toNat =
        d.decode.length := fun hle => UInt32.toNat_ofNat_of_lt' (by rw [UInt32.size]; omega)
    refine ⟨⟨?_, ?_⟩, by simp [appendNew, hmem], ?_⟩
    · intro v
      rw [AList.mem_insert, h.keys, List.mem_append, List.mem_singleton, or_comm]
    · intro hle v code hv
      rw [List.length_append, List.length_singleton] at hle
      by_cases heq : v = w
      · subst heq
        rw [AList.lookup_insert, Option.some.injEq] at hv
        simp [← hv, hcode hle]
      · rw [AList.lookup_insert_ne heq] at hv
        exact getElem?_mono (List.prefix_append _ _) (h.codes (by omega) v code hv)
    · intro hle
      rw [List.length_append, List.length_singleton] at hle
      simp [hcode hle]

/-- What the codes of a list of words stand for. -/
def CodesFor (skip : Word → Bool) (decode : List Word) : List Word → List UInt32 → Prop :=
  List.Forall₂ fun w code => skip w = false → decode[code.toNat]? = some w

lemma codesOf_spec (skip : Word → Bool) {d : MainDict} (h : d.Coherent) (words : List Word) :
    (codesOf skip d words).2.Coherent ∧
      (codesOf skip d words).2.decode = appendNew d.decode (words.filter fun w => !skip w) ∧
      (codesOf skip d words).1.length = words.length ∧
      ((codesOf skip d words).2.decode.length ≤ 2 ^ 32 →
        CodesFor skip (codesOf skip d words).2.decode words (codesOf skip d words).1) := by
  induction words generalizing d with
  | nil => exact ⟨h, rfl, rfl, fun _ => .nil⟩
  | cons w words ih =>
    unfold codesOf
    cases hskip : skip w with
    | true =>
      obtain ⟨hco, hdec, hlen, hcodes⟩ := ih h
      simp only [if_true]
      exact ⟨hco, by simpa [hskip] using hdec, by simp [hlen],
        fun hle => .cons (fun hno => by rw [hskip] at hno; cases hno) (hcodes hle)⟩
    | false =>
      obtain ⟨hco₁, hdec₁, hcode₁⟩ := codeOf_spec h w
      obtain ⟨hco, hdec, hlen, hcodes⟩ := ih hco₁
      have hgrow : (d.codeOf w).2.decode <+: (codesOf skip (d.codeOf w).2 words).2.decode := by
        rw [hdec]
        exact prefix_appendNew _ _
      simp only [Bool.false_eq_true, if_false]
      refine ⟨hco, ?_, by simp [hlen], fun hle => .cons (fun _ => ?_) (hcodes hle)⟩
      · rw [hdec, hdec₁, ← appendNew_append]
        simp [hskip]
      · exact getElem?_mono hgrow (hcode₁ (hgrow.length_le.trans hle))

lemma recordWildcards_spec {d : MainDict} (h : d.Coherent)
    (codes : AList fun _ : UInt32 => UInt32) (words : List (Sigma fun _ : Word => UInt32)) :
    (recordWildcards d codes words).2.Coherent ∧
      (recordWildcards d codes words).2.decode =
        appendNew d.decode (words.map fun entry => entry.1) := by
  induction words generalizing d codes with
  | nil => exact ⟨h, rfl⟩
  | cons entry words ih =>
    obtain ⟨hco₁, hdec₁, -⟩ := codeOf_spec h entry.1
    obtain ⟨hco, hdec⟩ := ih hco₁ (codes.insert (d.codeOf entry.1).1 entry.2)
    unfold recordWildcards
    refine ⟨hco, ?_⟩
    rw [hdec, hdec₁, ← appendNew_append]
    rfl

/-! ### Additions -/

/-- One phrase that a pass adds: the words it makes known, its path in the trie, and whether it
has a wildcard. -/
structure Addition where
  words : List Word
  path : List Word
  wild : Bool

/-- The phrase entry of an addition: the codes of its path, or more codes than the path has words. -/
def Addition.Entry (m : Addition) (decode : List Word) (e : PhraseInfo) : Prop :=
  e.hasWildcard = m.wild ∧
    if m.wild then m.path.length < e.wordCodes.length
    else e.wordCodes.map (fun code => decode[code.toNat]?) = m.path.map some

structure Adds (s s' : MiningState) (m : Addition) : Prop where
  coherent : s'.main.Coherent
  decode : s'.main.decode = appendNew s.main.decode m.words
  phrases : ∃ e, s'.phraseDecode = s.phraseDecode ++ [e] ∧
    (s'.main.decode.length ≤ 2 ^ 32 → m.Entry s'.main.decode e)
  other : ∀ p, p ≠ m.path →
    s'.phraseTrieRoot.infoAt {} p = s.phraseTrieRoot.infoAt {} p
  isEnd : (s'.phraseTrieRoot.infoAt {} m.path).isEnd = true
  hasWildcard : (s'.phraseTrieRoot.infoAt {} m.path).hasWildcard =
    (m.wild || (s.phraseTrieRoot.infoAt {} m.path).hasWildcard)
  phraseId : (s'.phraseTrieRoot.infoAt {} m.path).phraseId = UInt32.ofNat s.phraseDecode.length

lemma map_eq_of_codesFor {decode : List Word} {words : List Word} {codes : List UInt32}
    (h : CodesFor (fun _ => false) decode words codes) :
    codes.map (fun code => decode[code.toNat]?) = words.map some := by
  induction h with
  | nil => rfl
  | cons hw _ ih => rw [List.map_cons, List.map_cons, ih, hw rfl]

lemma addRegularPhrase_adds {s : MiningState} (h : s.main.Coherent) (ngram : List UInt8)
    (frequency : UInt32) : Adds s (addRegularPhrase s ngram frequency)
      ⟨splitWords ngram, splitWords ngram, false⟩ := by
  obtain ⟨hco, hdec, hlen, hcodes⟩ := codesOf_spec (fun _ => false) h (splitWords ngram)
  refine ⟨hco, ?_, ⟨_, rfl, fun hle => ⟨rfl, ?_⟩⟩, ?_, ?_, ?_, ?_⟩
  · simpa [addRegularPhrase] using hdec
  · simp only [Bool.false_eq_true, if_false]
    exact map_eq_of_codesFor (hcodes hle)
  · intro p hp
    simp only [addRegularPhrase, Trie.infoAt_modifyAt, if_neg hp]
  · simp [addRegularPhrase, Trie.infoAt_modifyAt]
  · simp [addRegularPhrase, Trie.infoAt_modifyAt]
  · simp [addRegularPhrase, Trie.infoAt_modifyAt]

lemma addWildcardPhrase_adds {s : MiningState} (h : s.main.Coherent) {pattern : List UInt8}
    (hstar : star ∈ splitWords pattern) (wildcardPos : ℕ)
    (words : List (Sigma fun _ : Word => UInt32)) (totalOccurrences : UInt32) :
    Adds s (addWildcardPhrase s pattern wildcardPos words totalOccurrences)
      ⟨(splitWords pattern).filter (· != star) ++ words.map (fun entry => entry.1),
        (splitWords pattern).filter (· != star), true⟩ := by
  obtain ⟨hco₁, hdec₁, hlen, -⟩ := codesOf_spec (· == star) h (splitWords pattern)
  obtain ⟨hco, hdec⟩ := recordWildcards_spec hco₁
    (s.phraseTrieRoot.infoAt {} ((splitWords pattern).filter (· != star))).wildcardCodes words
  refine ⟨hco, ?_, ⟨_, rfl, fun hle => ⟨rfl, ?_⟩⟩, ?_, ?_, ?_, ?_⟩
  · rw [appendNew_append]
    refine hdec.trans ?_
    rw [hdec₁]
    rfl
  · simp only [if_true, hlen]
    exact List.length_filter_lt_length_iff_exists.mpr ⟨star, hstar, by simp⟩
  · intro p hp
    simp only [addWildcardPhrase, Trie.infoAt_modifyAt, if_neg hp]
  · simp [addWildcardPhrase, Trie.infoAt_modifyAt]
  · simp [addWildcardPhrase, Trie.infoAt_modifyAt]
  · simp [addWildcardPhrase, Trie.infoAt_modifyAt]

/-- The last addition on a path. -/
def lastAt (p : List Word) (ms : List Addition) : Option Addition :=
  ms.reverse.find? fun m => m.path = p

lemma lastAt_snoc (p : List Word) (ms : List Addition) (m : Addition) :
    lastAt p (ms ++ [m]) = if m.path = p then some m else lastAt p ms := lastWith_snoc

lemma lastAt_append (p : List Word) (ms ms' : List Addition) :
    lastAt p (ms ++ ms') = (lastAt p ms').or (lastAt p ms) := lastWith_append

lemma lastAt_isSome {p : List Word} {ms : List Addition} :
    (lastAt p ms).isSome ↔ ∃ m ∈ ms, m.path = p := lastWith_isSome

lemma mem_of_lastAt {p : List Word} {ms : List Addition} {m : Addition}
    (h : lastAt p ms = some m) : m ∈ ms ∧ m.path = p := mem_of_lastWith h

/-- The state after the additions `ms` to the dictionary `main`. -/
structure Mined (main : MainDict) (ms : List Addition) (s : MiningState) : Prop where
  coherent : s.main.Coherent
  decode : s.main.decode = appendNew main.decode (ms.flatMap Addition.words)
  count : s.phraseDecode.length = ms.length
  isEnd : ∀ p, (s.phraseTrieRoot.infoAt {} p).isEnd = true ↔ ∃ m ∈ ms, m.path = p
  hasWildcard : ∀ p, (s.phraseTrieRoot.infoAt {} p).hasWildcard = true ↔
    ∃ m ∈ ms, m.path = p ∧ m.wild = true
  entry : s.main.decode.length ≤ 2 ^ 32 → s.phraseDecode.length ≤ 2 ^ 32 →
    ∀ p m, lastAt p ms = some m → ∃ e,
      s.phraseDecode[(s.phraseTrieRoot.infoAt {} p).phraseId.toNat]? = some e ∧
        m.Entry s.main.decode e

lemma mined_nil {main : MainDict} (h : main.Coherent) (nonRepeated : UInt32) :
    Mined main [] ⟨main, Trie.leaf {}, [], nonRepeated⟩ :=
  ⟨h, rfl, rfl, by simp, by simp, by simp [lastAt]⟩

lemma Addition.Entry.mono {m : Addition} {decode decode' : List Word} {e : PhraseInfo}
    (hgrow : decode <+: decode') (h : m.Entry decode e) : m.Entry decode' e := by
  refine ⟨h.1, ?_⟩
  have hcodes := h.2
  split_ifs at hcodes ⊢ with hw
  · exact hcodes
  · refine List.ext_getElem? fun i => ?_
    have hi := congrArg (fun l => l[i]?) hcodes
    simp only [List.getElem?_map] at hi ⊢
    cases hcode : e.wordCodes[i]? with
    | none => simpa [hcode] using hi
    | some code =>
      rw [hcode] at hi
      cases hp : m.path[i]? with
      | none => simp [hp] at hi
      | some w =>
        simp only [hp, Option.map_some, Option.some.injEq] at hi
        simp [getElem?_mono hgrow hi]

theorem Mined.snoc {main : MainDict} {ms : List Addition} {s s' : MiningState} {m : Addition}
    (h : Mined main ms s) (hadd : Adds s s' m) : Mined main (ms ++ [m]) s' := by
  have hgrow : s.main.decode <+: s'.main.decode := by
    rw [hadd.decode]
    exact prefix_appendNew _ _
  obtain ⟨e, hphrases, hentry⟩ := hadd.phrases
  refine ⟨hadd.coherent, ?_, ?_, ?_, ?_, ?_⟩
  · rw [hadd.decode, h.decode, ← appendNew_append]
    simp
  · rw [hphrases, List.length_append, List.length_append, h.count]
    rfl
  · intro p
    by_cases hp : p = m.path
    · subst hp
      simp [hadd.isEnd]
    · have hp' : ¬ m.path = p := fun heq => hp heq.symm
      rw [hadd.other p hp, h.isEnd]
      simp [hp']
  · intro p
    by_cases hp : p = m.path
    · subst hp
      rw [hadd.hasWildcard, Bool.or_eq_true, h.hasWildcard]
      simp [or_and_right, exists_or, or_comm]
    · have hp' : ¬ m.path = p := fun heq => hp heq.symm
      rw [hadd.other p hp, h.hasWildcard]
      simp [hp']
  · intro hdecode hcount p last hlast
    rw [hphrases, List.length_append, List.length_singleton] at hcount
    rw [lastAt_snoc] at hlast
    split_ifs at hlast with hp
    · subst hp
      cases hlast
      refine ⟨e, ?_, hentry hdecode⟩
      have hid : (UInt32.ofNat s.phraseDecode.length).toNat = s.phraseDecode.length :=
        UInt32.toNat_ofNat_of_lt' (by rw [UInt32.size]; omega)
      rw [hadd.phraseId, hid, hphrases]
      simp
    · obtain ⟨e', he', hentry'⟩ := h.entry (hgrow.length_le.trans hdecode) (by omega) p last hlast
      refine ⟨e', ?_, hentry'.mono hgrow⟩
      rw [hadd.other p (fun heq => hp heq.symm), hphrases]
      exact getElem?_mono (List.prefix_append _ _) he'

end HashCompress.PhraseMining
