import HashCompress.DictionaryGrowth
import HashCompress.PhraseEntries

/-!
# The phrases that are shown

`print_phrase_stats` takes the ten highest frequencies and calls `to_string` on their phrases. When
that is defined, in terms of the text: the dictionary may be of any size.
-/
namespace HashCompress.Compressor

open WordText TallyMap KeyTrie CodeTables DictionaryFile PhraseMining

/-! ### Codes in range -/

/-- No code of the dictionary is out of range. Unlike `Inverse` this holds of dictionaries of any size,
in which the codes wrap. -/
def CodesInRange (d : MainDict) : Prop :=
  ∀ w code, d.encode.lookup w = some code → code.toNat < d.decode.length

lemma ofNat_lt_succ (n : ℕ) : (UInt32.ofNat n).toNat < n + 1 := by
  rw [UInt32.toNat_ofNat']
  exact Nat.lt_succ_of_le (Nat.mod_le n _)

lemma codesInRange_insert {d : MainDict} (h : CodesInRange d) (w : Word) :
    CodesInRange ⟨d.encode.insert w (UInt32.ofNat d.decode.length), d.decode ++ [w]⟩ := by
  intro v code hv
  rw [List.length_append, List.length_singleton]
  by_cases heq : v = w
  · subst heq
    rw [AList.lookup_insert, Option.some.injEq] at hv
    rw [← hv]
    exact ofNat_lt_succ _
  · rw [AList.lookup_insert_ne heq] at hv
    exact (h v code hv).trans (Nat.lt_succ_self _)

lemma codesInRange_buildEncode (words : List Word) : CodesInRange ⟨buildEncode words, words⟩ := by
  induction words using List.reverseRecOn with
  | nil =>
    intro w code hw
    simp [buildEncode] at hw
  | append_singleton words w ih =>
    rw [buildEncode_concat]
    exact codesInRange_insert ih w

lemma codeOf_inRange {d : MainDict} (h : CodesInRange d) (w : Word) :
    CodesInRange (d.codeOf w).2 ∧ (d.codeOf w).1.toNat < (d.codeOf w).2.decode.length := by
  unfold MainDict.codeOf
  cases hw : d.encode.lookup w with
  | some code => exact ⟨h, h w code hw⟩
  | none =>
    refine ⟨codesInRange_insert h w, ?_⟩
    rw [List.length_append, List.length_singleton]
    exact ofNat_lt_succ _

lemma codesInRange_lookUp {d : MainDict} (h : CodesInRange d) (words : List Word) :
    CodesInRange (lookUp d words) := by
  induction words generalizing d with
  | nil => exact h
  | cons w words ih => exact ih (codeOf_inRange h w).1

lemma codesOf_inRange (skip : Word → Bool) {d : MainDict} (h : CodesInRange d) (words : List Word) :
    List.Forall₂ (fun w code => skip w = false → code.toNat < (codesOf skip d words).2.decode.length)
      words (codesOf skip d words).1 := by
  induction words generalizing d with
  | nil => exact .nil
  | cons w words ih =>
    unfold codesOf
    cases hskip : skip w with
    | true => exact .cons (fun hno => by rw [hskip] at hno; cases hno) (ih h)
    | false =>
      obtain ⟨hrange, hcode⟩ := codeOf_inRange h w
      have hgrow : (d.codeOf w).2.decode <+: (codesOf skip (d.codeOf w).2 words).2.decode := by
        rw [codesOf_eq_lookUp]
        exact (keeps_lookUp _ _).decode
      exact .cons (fun _ => hcode.trans_le hgrow.length_le) (ih hrange)

/-! ### The entries with their frequencies -/

/-- What a pass makes of a word of a phrase when the dictionary has `size` words. -/
def CodeBelow (m : Mark) (size : ℕ) (w : Word) (code : UInt32) : Prop :=
  if m.slot.isSome ∧ w = star then code = 4294967295 else code.toNat < size

/-- The entry of a phrase that was counted so often. -/
structure CountedEntry (size : ℕ) (x : Mark × UInt32) (e : PhraseInfo) : Prop where
  frequency : e.frequency = x.2
  hasWildcard : e.hasWildcard = x.1.slot.isSome
  wildcardPos : e.wildcardPos = x.1.slot.getD 0
  codes : List.Forall₂ (CodeBelow x.1 size) x.1.words e.wordCodes

lemma CountedEntry.mono {size size' : ℕ} (hle : size ≤ size') {x : Mark × UInt32} {e : PhraseInfo}
    (h : CountedEntry size x e) : CountedEntry size' x e := by
  refine ⟨h.frequency, h.hasWildcard, h.wildcardPos, h.codes.imp fun w code hcode => ?_⟩
  unfold CodeBelow at hcode ⊢
  split_ifs at hcode ⊢
  · exact hcode
  · exact hcode.trans_le hle

/-- The phrases that the passes add, in order, with the number they were counted. -/
def countedMarks (o : Orders) (tokens : List Word) : List (Mark × UInt32) :=
  (((jobs o tokens).filter fun j => minPhraseFreq ≤ j.total).map fun j => (j.mark, j.total)) ++
    ((o.ngrams.run (ngramFreqs tokens).entries).filter fun e =>
      minPhraseFreq ≤ e.2 ∨ (e.2 = 1 ∧ (ngramFreqs tokens).entries.length < 1000)).map
        fun e => (ngramMark e, e.2)

/-- The state after the additions of `xs`. -/
structure Counted (xs : List (Mark × UInt32)) (s : MiningState) : Prop where
  inRange : CodesInRange s.main
  entries : List.Forall₂ (CountedEntry s.main.decode.length) xs s.phraseDecode

lemma Counted.snoc {xs : List (Mark × UInt32)} {s s' : MiningState} (h : Counted xs s)
    {words : List Word} (hmain : s'.main = lookUp s.main words) {x : Mark × UInt32} {e : PhraseInfo}
    (hphrases : s'.phraseDecode = s.phraseDecode ++ [e])
    (hentry : CountedEntry s'.main.decode.length x e) : Counted (xs ++ [x]) s' := by
  have hgrow : s.main.decode.length ≤ s'.main.decode.length := by
    rw [hmain]
    exact (keeps_lookUp _ _).decode.length_le
  refine ⟨by rw [hmain]; exact codesInRange_lookUp h.inRange words, ?_⟩
  rw [hphrases]
  exact List.rel_append (h.entries.imp fun x e he => he.mono hgrow) (.cons hentry .nil)

lemma Counted.addWildcardPhrase {xs : List (Mark × UInt32)} {s : MiningState} (h : Counted xs s)
    (j : Job) : Counted (xs ++ [(j.mark, j.total)])
      (addWildcardPhrase s j.pattern j.pos j.words j.total) := by
  refine h.snoc (addWildcardPhrase_main s j.pattern j.pos j.words j.total) rfl ⟨rfl, rfl, rfl, ?_⟩
  -- the wildcard words are looked up behind the words of the pattern
  have hgrow : (codesOf (· == star) s.main (splitWords j.pattern)).2.decode <+:
      (PhraseMining.addWildcardPhrase s j.pattern j.pos j.words j.total).main.decode := by
    rw [addWildcardPhrase_main, codesOf_eq_lookUp, lookUp_append]
    exact (keeps_lookUp _ _).decode
  refine (codesOf_placeholder (· == star) s.main (splitWords j.pattern)).mp
    (fun w code hskip hcode => ?_) (codesOf_inRange (· == star) h.inRange (splitWords j.pattern))
  unfold CodeBelow
  split_ifs with hstar
  · exact hskip (by simp [hstar.2])
  · have hne : w ≠ star := fun heq => hstar ⟨rfl, heq⟩
    exact (hcode (by simpa using hne)).trans_le hgrow.length_le

lemma Counted.addRegularPhrase {xs : List (Mark × UInt32)} {s : MiningState} (h : Counted xs s)
    (e : Sigma fun _ : List UInt8 => UInt32) :
    Counted (xs ++ [(ngramMark e, e.2)]) (addRegularPhrase s e.1 e.2) := by
  refine h.snoc (addRegularPhrase_main s e.1 e.2) rfl ⟨rfl, rfl, rfl, ?_⟩
  refine (codesOf_inRange (fun _ => false) h.inRange (splitWords e.1)).imp fun w code hcode => ?_
  rw [CodeBelow, if_neg (by simp [ngramMark])]
  exact hcode rfl

lemma counted_minePhrases (o : Orders) (tokens : List Word) {main : MainDict}
    (h : CodesInRange main) : Counted (countedMarks o tokens) (minePhrases o tokens main) :=
  findRegularPhrases_induct (fun e => (ngramMark e, e.2)) (fun e _ _ _ hs => hs.addRegularPhrase e)
    (findWildcardPhrases_induct (fun j => (j.mark, j.total))
      (fun j _ _ _ hs => hs.addWildcardPhrase j) ⟨h, .nil⟩)

/-! ### Showing the highest frequencies -/

/-- The slot is the only asterisk of the phrase. -/
def Printable (m : Mark) : Prop := ∀ pos ∈ m.slot, star ∉ m.words.eraseIdx pos

instance (m : Mark) : Decidable (Printable m) :=
  inferInstanceAs (Decidable (∀ pos ∈ m.slot, star ∉ m.words.eraseIdx pos))

/-- The phrases at the head of the list sorted by frequency. -/
def shownMarks (sort : SortOrder (UInt32 × ℕ) fun a b => a.1 > b.1) (o : Orders)
    (tokens : List Word) : List Mark :=
  ((sort.run ((countedMarks o tokens).zipIdx.map fun x => (x.1.2, x.2))).take 10).filterMap fun x =>
    (countedMarks o tokens)[x.2]?.map Prod.fst

/-- `to_string` fails exactly at a literal asterisk, which has the placeholder for a code, unless the
dictionary is so large that even this is an index. -/
lemma CountedEntry.phraseText_isSome_iff {decode : List Word} {x : Mark × UInt32} {e : PhraseInfo}
    (h : CountedEntry decode.length x e) :
    (phraseText e decode).isSome ↔ 2 ^ 32 ≤ decode.length ∨ Printable x.1 := by
  have hbig : (4294967295 : UInt32).toNat = 2 ^ 32 - 1 := rfl
  have hslot : ∀ {pos}, x.1.slot = some pos → e.hasWildcard = true ∧ e.wildcardPos = pos := by
    intro pos hpos
    rw [h.hasWildcard, h.wildcardPos, hpos]
    exact ⟨rfl, rfl⟩
  rw [PhraseMining.phraseText_isSome_iff]
  constructor
  · intro hall
    by_contra hno
    rw [not_or, not_le] at hno
    refine hno.2 fun pos hpos hmem => ?_
    obtain ⟨i, hi, hword⟩ := List.mem_eraseIdx_iff_getElem?.mp hmem
    have hlt : i < e.wordCodes.length :=
      h.codes.length_eq ▸ (List.getElem?_eq_some_iff.mp hword).1
    obtain ⟨w, hw, hcode⟩ := forall₂_getElem? h.codes (List.getElem?_eq_getElem hlt)
    obtain rfl : star = w := Option.some.inj (hword.symm.trans hw)
    rw [CodeBelow, if_pos ⟨by rw [hpos]; rfl, rfl⟩] at hcode
    have hcase := hall i _ (List.getElem?_eq_getElem hlt)
    rw [hcode, (hslot hpos).2] at hcase
    rcases hcase with hcase | hcase
    · exact hi hcase.2
    · omega
  · intro hcond k code hcode
    obtain ⟨w, hw, hrel⟩ := forall₂_getElem? h.codes hcode
    unfold CodeBelow at hrel
    split_ifs at hrel with hstar
    · obtain ⟨hsome, rfl⟩ := hstar
      obtain ⟨pos, hpos⟩ := Option.isSome_iff_exists.mp hsome
      rcases hcond with hcond | hcond
      · right
        rw [hrel]
        omega
      · left
        by_contra hk
        have hne : k ≠ pos := fun heq => hk ⟨(hslot hpos).1, heq.trans (hslot hpos).2.symm⟩
        exact hcond pos hpos (List.mem_eraseIdx_iff_getElem?.mpr ⟨k, hne, hw⟩)
    · exact Or.inr hrel

lemma map_frequency {size : ℕ} {xs : List (Mark × UInt32)} {es : List PhraseInfo}
    (h : List.Forall₂ (CountedEntry size) xs es) : es.map PhraseInfo.frequency = xs.map Prod.snd := by
  induction h with
  | nil => rfl
  | cons he _ ih => rw [List.map_cons, List.map_cons, ih, he.frequency]

/-- The list of the highest frequencies can be printed exactly if the slots are the only asterisks of
the phrases in it, or the dictionary has 2^32 words. -/
theorem printPhraseStats_isSome_iff_shown (sort : SortOrder (UInt32 × ℕ) fun a b => a.1 > b.1)
    (o : Orders) (tokens : List Word) {main : MainDict} (h : CodesInRange main)
    {c : TwoTierTextCompressor} (hmain : c.mainDecode = (minePhrases o tokens main).main.decode)
    (hphrases : c.phraseDecode = (minePhrases o tokens main).phraseDecode) :
    (printPhraseStats sort c).isSome ↔ 2 ^ 32 ≤ (minePhrases o tokens main).main.decode.length ∨
      ∀ m ∈ shownMarks sort o tokens, Printable m := by
  have hentries := (counted_minePhrases o tokens h).entries
  rw [← hmain, ← hphrases] at hentries
  have hpairs : (c.phraseDecode.zipIdx.map fun x => (x.1.frequency, x.2)) =
      (countedMarks o tokens).zipIdx.map fun x => (x.1.2, x.2) := by
    have hzip := congrArg List.zipIdx (map_frequency hentries)
    rw [List.zipIdx_map, List.zipIdx_map] at hzip
    exact hzip
  rw [printPhraseStats_isSome_iff, hpairs, ← hmain]
  set shown := (sort.run ((countedMarks o tokens).zipIdx.map fun x => (x.1.2, x.2))).take 10
  constructor
  · intro hall
    by_contra hno
    rw [not_or] at hno
    refine hno.2 fun m hm => ?_
    obtain ⟨x, hx, hmark⟩ := List.mem_filterMap.mp hm
    obtain ⟨y, hy, rfl⟩ := Option.map_eq_some_iff.mp hmark
    have hlt : x.2 < c.phraseDecode.length := hentries.length_eq ▸ (List.getElem?_eq_some_iff.mp hy).1
    obtain ⟨y', hy', hentry⟩ := forall₂_getElem? hentries (List.getElem?_eq_getElem hlt)
    obtain rfl : y = y' := Option.some.inj (hy.symm.trans hy')
    exact (hentry.phraseText_isSome_iff.mp (hall x hx _ (List.getElem?_eq_getElem hlt))).resolve_left
      hno.1
  · intro hcond x hx e he
    obtain ⟨y, hy, hentry⟩ := forall₂_getElem? hentries he
    refine hentry.phraseText_isSome_iff.mpr (hcond.imp_right fun hall => hall y.1 ?_)
    exact List.mem_filterMap.mpr ⟨x, hx, by rw [hy]; rfl⟩

end HashCompress.Compressor
