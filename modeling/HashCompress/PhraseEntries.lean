import HashCompress.RoundTrip
import HashCompress.PhraseMarks

/-!
# Trie nodes and phrase entries

Whether the nodes of the trie agree with the entries of the phrase list they refer to, and whether
the entries hold codes of words. Two things can go wrong: a regular phrase is stored at a node that
keeps the wildcard flag of an earlier pattern, and a literal asterisk of the text is taken for the
slot of its pattern.
-/
namespace HashCompress.PhraseMining

open WordText TallyMap KeyTrie CodeTables TokenCodec PhraseSegment Tokenizer Compressor

/-- The codes of an entry without the one at its slot. -/
def plainCodes (e : PhraseInfo) : List UInt32 :=
  if e.hasWildcard then e.wordCodes.eraseIdx e.wildcardPos else e.wordCodes

/-- A node at the path `p` agrees with the entry it refers to, and `p` with the words of the entry. -/
structure NodeCoherent (decode : List Word) (phrases : List PhraseInfo) (p : List Word)
    (info : NodeInfo) (e : PhraseInfo) : Prop where
  phraseId : phrases[info.phraseId.toNat]? = some e
  hasWildcard : info.hasWildcard = e.hasWildcard
  wordCodes : info.wordCodes = e.wordCodes
  wildcardPos : info.hasWildcard = true → info.wildcardPos = e.wildcardPos
  words : (plainCodes e).map (fun code => decode[code.toNat]?) = p.map some

def TrieCoherent (s : MiningState) : Prop :=
  ∀ p, EndsAt s.phraseTrieRoot p → ∃ e, NodeCoherent s.main.decode s.phraseDecode p
    (s.phraseTrieRoot.infoAt {} p) e

/-- A wildcard token stands behind a phrase token if and only if the entry of the phrase has a
wildcard, and nowhere else. -/
def WildcardsPaired (phrases : List PhraseInfo) : List Token → Prop
  | [] => True
  | .word _ :: tokens => WildcardsPaired phrases tokens
  | .wildcard _ _ :: _ => False
  | .phrase phraseId :: .wildcard _ _ :: tokens =>
    (∃ e, phrases[phraseId.toNat]? = some e ∧ e.hasWildcard = true) ∧ WildcardsPaired phrases tokens
  | .phrase phraseId :: tokens =>
    (∃ e, phrases[phraseId.toNat]? = some e ∧ e.hasWildcard = false) ∧ WildcardsPaired phrases tokens

/-- No frequent pattern becomes a registered n-gram when its asterisks are dropped, and of the
patterns that become the same words the one added last has no asterisk but its slot. -/
structure PatternsApart (o : Orders) (tokens : List Word) : Prop where
  registered : ∀ p, Starred tokens p → ¬ Registered tokens p
  literal : ∀ p m, lastMark p (wildcardMarks o tokens) = some m → m.words.count star = 1

/-! ### Dropping the slot -/

lemma eraseIdx_eq_filter {words : List Word} {i : ℕ} (hi : words[i]? = some star)
    (hcount : words.count star = 1) : words.eraseIdx i = words.filter (· != star) := by
  induction words generalizing i with
  | nil => simp at hi
  | cons w words ih =>
    cases i with
    | zero =>
      obtain rfl : w = star := by simpa using hi
      have hnone : star ∉ words := by
        rw [List.count_cons_self, Nat.add_eq_right] at hcount
        exact List.count_eq_zero.mp hcount
      rw [List.eraseIdx_cons_zero, List.filter_cons_of_neg (by simp), eq_comm, List.filter_eq_self]
      intro v hv
      have hne : v ≠ star := fun heq => hnone (heq ▸ hv)
      simpa using hne
    | succ i =>
      rw [List.getElem?_cons_succ] at hi
      have hpos : 0 < words.count star := List.count_pos_iff.mpr (List.mem_of_getElem? hi)
      have hne : w ≠ star := by
        rintro rfl
        rw [List.count_cons_self] at hcount
        omega
      rw [List.count_cons_of_ne hne] at hcount
      rw [List.eraseIdx_cons_succ, List.filter_cons_of_pos (by simpa using hne), ih hi hcount]

lemma forall₂_eraseIdx {α β : Type} {R : α → β → Prop} {xs : List α} {ys : List β}
    (h : List.Forall₂ R xs ys) (i : ℕ) : List.Forall₂ R (xs.eraseIdx i) (ys.eraseIdx i) := by
  induction h generalizing i with
  | nil => exact .nil
  | cons hr hrest ih =>
    cases i with
    | zero => exact hrest
    | succ i => exact .cons hr (ih i)

lemma map_eq_of_codeFor {m : Mark} {decode words : List Word} {codes : List UInt32}
    (h : List.Forall₂ (m.CodeFor decode) words codes)
    (hword : ∀ w ∈ words, ¬ (m.slot.isSome ∧ w = star)) :
    codes.map (fun code => decode[code.toNat]?) = words.map some := by
  induction h with
  | nil => rfl
  | cons hcode _ ih =>
    rw [Mark.CodeFor, if_neg (hword _ List.mem_cons_self)] at hcode
    rw [List.map_cons, List.map_cons, hcode, ih fun w hw => hword w (List.mem_cons_of_mem _ hw)]

/-- The entry of a pattern with no asterisk but its slot has the words of its path. -/
lemma plainCodes_of_single {m : Mark} {decode : List Word} {e : PhraseInfo} (h : m.Entry decode e)
    {pos : ℕ} (hslot : m.slot = some pos) (hstar : m.words[pos]? = some star)
    (hcount : m.words.count star = 1) :
    (plainCodes e).map (fun code => decode[code.toNat]?) = m.path.map some := by
  have hwild : e.hasWildcard = true := by rw [h.hasWildcard, hslot]; rfl
  have hpos : e.wildcardPos = pos := by rw [h.wildcardPos, hslot]; rfl
  have hpath : m.path = m.words.eraseIdx pos := by
    rw [Mark.path, hslot, eraseIdx_eq_filter hstar hcount]
    rfl
  rw [plainCodes, if_pos hwild, hpos, hpath]
  refine map_eq_of_codeFor (forall₂_eraseIdx h.codes pos) fun w hw hno => ?_
  rw [eraseIdx_eq_filter hstar hcount] at hw
  simpa [hno.2] using (List.mem_filter.mp hw).2

lemma plainCodes_of_plain {m : Mark} {decode : List Word} {e : PhraseInfo} (h : m.Entry decode e)
    (hslot : m.slot = none) :
    (plainCodes e).map (fun code => decode[code.toNat]?) = m.words.map some := by
  have hplain : e.hasWildcard = false := by rw [h.hasWildcard, hslot]; rfl
  rw [plainCodes, hplain]
  exact map_eq_of_codeFor h.codes fun w _ hno => by rw [hslot] at hno; cases hno.1

/-- An entry whose words are those of its path has no asterisk but its slot. -/
lemma count_star_of_plainCodes {m : Mark} {decode : List Word} {e : PhraseInfo}
    (h : m.Entry decode e) {pos : ℕ} (hslot : m.slot = some pos) (hpos : pos < m.words.length)
    (hwords : (plainCodes e).map (fun code => decode[code.toNat]?) = m.path.map some) :
    m.words.count star = 1 := by
  have hwild : e.hasWildcard = true := by rw [h.hasWildcard, hslot]; rfl
  have hpos' : e.wildcardPos = pos := by rw [h.wildcardPos, hslot]; rfl
  have hlen := congrArg List.length hwords
  have hpath : m.path = m.words.filter (· != star) := by rw [Mark.path, hslot]; rfl
  have hsplit := List.length_eq_length_filter_add (l := m.words) (fun w => w != star)
  have hcount : (m.words.filter fun w => !(w != star)).length = m.words.count star := by
    rw [List.count_eq_length_filter]
    congr 1
    refine List.filter_congr fun w _ => ?_
    rw [bne, Bool.not_not]
  rw [List.length_map, List.length_map, plainCodes, if_pos hwild, hpos', hpath,
    List.length_eraseIdx_of_lt (h.codes.length_eq ▸ hpos), ← h.codes.length_eq] at hlen
  omega

lemma pattern_at_slot {tokens : List Word} {occ : Occurrence}
    (h : occ ∈ wildcardOccurrences tokens) : occ.pattern[occ.pos]? = some star := by
  rw [Occurrence.pattern, List.getElem?_set_self (mem_wildcardOccurrences h).1]

/-! ### The nodes of the trie -/

section Coherence

variable {tokens : List Word} (htok : ∀ w ∈ tokens, IsToken w) {main : MainDict} (h : main.Coherent)
  (o : Orders) (hfits : Fits main tokens)
include htok h hfits

lemma minePhrases_fits : (minePhrases o tokens main).phraseDecode.length ≤ 2 ^ 32 ∧
    (minePhrases o tokens main).main.decode.length ≤ 2 ^ 32 := by
  obtain ⟨hcount, hsize, -⟩ := minePhrases_sizes htok o h
  exact ⟨hcount.trans_le hfits.1, hsize.trans_le hfits.2⟩

lemma nodeCoherent_registered {p : List Word} (hreg : Registered tokens p)
    (hstar : ¬ Starred tokens p) :
    ∃ e, NodeCoherent (minePhrases o tokens main).main.decode (minePhrases o tokens main).phraseDecode p
      ((minePhrases o tokens main).phraseTrieRoot.infoAt {} p) e := by
  obtain ⟨hcount, hsize⟩ := minePhrases_fits htok h o hfits
  obtain ⟨e, he, hcodes, hentry⟩ :=
    entry_minePhrases htok o h hcount hsize (lastMark_registered htok o hreg)
  have hflag : ((minePhrases o tokens main).phraseTrieRoot.infoAt {} p).hasWildcard = false := by
    rw [Bool.eq_false_iff, ne_eq, hasWildcard_minePhrases htok h o]
    exact hstar
  refine ⟨e, he, ?_, hcodes, fun hwild => ?_, plainCodes_of_plain hentry rfl⟩
  · rw [hflag, hentry.hasWildcard]
    rfl
  · rw [hflag] at hwild
    cases hwild

lemma nodeCoherent_starred {p : List Word} {m : Mark} (hreg : ¬ Registered tokens p)
    (hlast : lastMark p (wildcardMarks o tokens) = some m) (hcount : m.words.count star = 1) :
    ∃ e, NodeCoherent (minePhrases o tokens main).main.decode (minePhrases o tokens main).phraseDecode p
      ((minePhrases o tokens main).phraseTrieRoot.infoAt {} p) e := by
  obtain ⟨hphrases, hsize⟩ := minePhrases_fits htok h o hfits
  obtain ⟨e, he, hcodes, hentry⟩ := entry_minePhrases htok o h hphrases hsize
    ((lastMark_starred htok o hreg).trans hlast)
  have hslot := wildcardPos_minePhrases htok o h hlast
  obtain ⟨hmem, rfl⟩ := mem_of_lastWith hlast
  have hstarred : Starred tokens m.path := (exists_wildcardMark htok o).mp ⟨m, hmem, rfl⟩
  obtain ⟨occ, hocc, rfl⟩ := (mem_wildcardMarks htok o).mp hmem
  refine ⟨e, he, ?_, hcodes, fun _ => ?_, ?_⟩
  · rw [(hasWildcard_minePhrases htok h o _).mpr hstarred, hentry.hasWildcard]
    rfl
  · rw [hentry.wildcardPos, hslot, Option.getD_some]
  · exact plainCodes_of_single hentry rfl (pattern_at_slot (mem_selectedOccurrences.mp hocc).1) hcount

theorem trieCoherent_iff :
    TrieCoherent (minePhrases o tokens main) ↔ PatternsApart o tokens := by
  obtain ⟨hphrases, hsize⟩ := minePhrases_fits htok h o hfits
  constructor
  · intro hcoherent
    have hapart : ∀ p, Starred tokens p → ¬ Registered tokens p := by
      -- The node keeps its flag, but its entry is the one of the n-gram.
      intro p hstar hreg
      obtain ⟨e, hnode⟩ := hcoherent p ((endsAt_minePhrases htok h o p).mpr (Or.inl hstar))
      obtain ⟨e', he', -, hentry⟩ :=
        entry_minePhrases htok o h hphrases hsize (lastMark_registered htok o hreg)
      obtain rfl : e = e' := Option.some.inj (hnode.phraseId.symm.trans he')
      have hflag := hnode.hasWildcard
      rw [(hasWildcard_minePhrases htok h o p).mpr hstar, hentry.hasWildcard] at hflag
      cases hflag
    refine ⟨hapart, fun p m hlast => ?_⟩
    obtain ⟨hmem, rfl⟩ := mem_of_lastWith hlast
    have hstar : Starred tokens m.path := (exists_wildcardMark htok o).mp ⟨m, hmem, rfl⟩
    obtain ⟨e, hnode⟩ := hcoherent m.path ((endsAt_minePhrases htok h o _).mpr (Or.inl hstar))
    obtain ⟨e', he', -, hentry⟩ := entry_minePhrases htok o h hphrases hsize
      ((lastMark_starred htok o (hapart _ hstar)).trans hlast)
    obtain rfl : e = e' := Option.some.inj (hnode.phraseId.symm.trans he')
    obtain ⟨occ, hocc, rfl⟩ := (mem_wildcardMarks htok o).mp hmem
    have hlt := (List.getElem?_eq_some_iff.mp
      (pattern_at_slot (mem_selectedOccurrences.mp hocc).1)).1
    exact count_star_of_plainCodes hentry rfl hlt hnode.words
  · rintro ⟨hapart, hliteral⟩ p hend
    by_cases hstar : Starred tokens p
    · obtain ⟨m, hlast⟩ := Option.isSome_iff_exists.mp
        (lastWith_isSome.mpr ((exists_wildcardMark htok o).mpr hstar))
      exact nodeCoherent_starred htok h o hfits (hapart p hstar) hlast (hliteral p m hlast)
    · have hreg := ((endsAt_minePhrases htok h o p).mp hend).resolve_left hstar
      exact nodeCoherent_registered htok h o hfits hreg hstar

end Coherence

/-! ### The emitted tokens -/

lemma wildcardsPaired_matchTokens {phrases : List PhraseInfo} {info : NodeInfo} {e : PhraseInfo}
    (he : phrases[info.phraseId.toNat]? = some e) (hflag : info.hasWildcard = e.hasWildcard)
    (w : Word) {tokens : List Token} (htail : WildcardsPaired phrases tokens) :
    WildcardsPaired phrases (matchTokens info w ++ tokens) := by
  unfold matchTokens
  cases hwild : info.hasWildcard with
  | true => exact ⟨⟨e, he, hflag.symm.trans hwild⟩, htail⟩
  | false =>
    have hplain : ∃ e, phrases[info.phraseId.toNat]? = some e ∧ e.hasWildcard = false :=
      ⟨e, he, hflag.symm.trans hwild⟩
    cases tokens with
    | nil => exact ⟨hplain, htail⟩
    | cons token tokens =>
      cases token with
      | word w => exact ⟨hplain, htail⟩
      | phrase phraseId => exact ⟨hplain, htail⟩
      | wildcard w phraseId => exact htail.elim

/-- On a coherent trie a wildcard token is emitted exactly behind the phrases that have one. -/
lemma wildcardsPaired_processLoop {s : MiningState} (h : TrieCoherent s) (fuel : ℕ)
    (tokens : List Word) :
    WildcardsPaired s.phraseDecode (processLoop s.phraseTrieRoot fuel tokens) := by
  induction fuel generalizing tokens with
  | zero => trivial
  | succ fuel ih =>
    cases tokens with
    | nil => trivial
    | cons token rest =>
      unfold processLoop
      rcases matchPhrase_spec s.phraseTrieRoot (token :: rest) with ⟨n, hn, hmatch⟩ | ⟨-, hmatch⟩
      · obtain ⟨e, hnode⟩ := h _ hn.ends
        rw [hmatch]
        exact wildcardsPaired_matchTokens hnode.phraseId hnode.hasWildcard _ (ih _)
      · rw [hmatch]
        exact ih rest

/-- After both passes the trie and the phrase list are coherent, and wildcard tokens are emitted
accordingly. -/
def StaysCoherent (o : Orders) (main : MainDict) (tokens : List Word) : Prop :=
  TrieCoherent (minePhrases o tokens main) ∧
    WildcardsPaired (minePhrases o tokens main).phraseDecode
      (processWithPhrases (minePhrases o tokens main).phraseTrieRoot tokens)

/-- For every text, every order of traversal and every dictionary: within 32-bit sizes the trie and
the phrase list are coherent exactly if the patterns are apart from the n-grams and from literal
asterisks. -/
theorem staysCoherent_iff (text : List UInt8) (o : Orders) {main : MainDict} (h : main.Coherent) :
    (Fits main (tokenizeRaw text) ∧ PatternsApart o (tokenizeRaw text) →
      StaysCoherent o main (tokenizeRaw text)) ∧
    (Fits main (tokenizeRaw text) → StaysCoherent o main (tokenizeRaw text) →
      PatternsApart o (tokenizeRaw text)) := by
  have htok : ∀ w ∈ tokenizeRaw text, IsToken w := fun w hw => tokenizeRaw_isToken hw
  refine ⟨fun hcond => ?_, fun hfits hstays => ?_⟩
  · have hcoherent := (trieCoherent_iff htok h o hcond.1).mpr hcond.2
    exact ⟨hcoherent, wildcardsPaired_processLoop hcoherent _ _⟩
  · exact (trieCoherent_iff htok h o hfits).mp hstays.1

/-- The text `a x b a y b`, in which `a * b`, `a *` and `* b` are frequent. -/
def slotText : List UInt8 := [97, 32, 120, 32, 98, 32, 97, 32, 121, 32, 98]

theorem staysCoherent_slotText : StaysCoherent .same ⟨∅, []⟩ (tokenizeRaw slotText) := by
  have hregistered : ∀ occ ∈ wildcardOccurrences (tokenizeRaw slotText),
      Selected (tokenizeRaw slotText) occ →
        ¬ Registered (tokenizeRaw slotText) (occ.pattern.filter (· != star)) := by decide +kernel
  have hliteral : ∀ m ∈ wildcardMarks .same (tokenizeRaw slotText), m.words.count star = 1 := by
    decide +kernel
  refine (staysCoherent_iff slotText .same coherent_empty).1 ⟨?_, ?_, ?_⟩
  · unfold Fits
    decide +kernel
  · rintro p ⟨occ, hocc, hsel, rfl⟩
    exact hregistered occ hocc hsel
  · intro p m hlast
    exact hliteral m (mem_of_lastWith hlast).1

/-- The text `a a a a a a a`: the node `a a` has the flag of `a a *`, `a * a` and `* a a` but the
number of the n-gram `a a`. -/
def sevenText : List UInt8 := [97, 32, 97, 32, 97, 32, 97, 32, 97, 32, 97, 32, 97]

theorem not_staysCoherent_sevenText :
    ¬ TrieCoherent (minePhrases .same (tokenizeRaw sevenText) ⟨∅, []⟩) ∧
    ¬ WildcardsPaired (minePhrases .same (tokenizeRaw sevenText) ⟨∅, []⟩).phraseDecode
      (processWithPhrases (minePhrases .same (tokenizeRaw sevenText) ⟨∅, []⟩).phraseTrieRoot
        (tokenizeRaw sevenText)) := by
  have hentry : ∀ e, (minePhrases .same (tokenizeRaw sevenText) ⟨∅, []⟩).phraseDecode[
      (14 : UInt32).toNat]? = some e → e.hasWildcard = false := by
    have hplain : ((minePhrases .same (tokenizeRaw sevenText) ⟨∅, []⟩).phraseDecode[
        (14 : UInt32).toNat]?).map PhraseInfo.hasWildcard = some false := by decide +kernel
    intro e he
    rw [he] at hplain
    exact Option.some.inj hplain
  constructor
  · intro hcoherent
    have hend : EndsAt (minePhrases .same (tokenizeRaw sevenText) ⟨∅, []⟩).phraseTrieRoot
        [[97], [97]] := by
      unfold EndsAt
      decide +kernel
    have hflag : ((minePhrases .same (tokenizeRaw sevenText) ⟨∅, []⟩).phraseTrieRoot.infoAt {}
        [[97], [97]]).hasWildcard = true := by decide +kernel
    have hid : ((minePhrases .same (tokenizeRaw sevenText) ⟨∅, []⟩).phraseTrieRoot.infoAt {}
        [[97], [97]]).phraseId = 14 := by decide +kernel
    obtain ⟨e, hnode⟩ := hcoherent _ hend
    have he := hnode.phraseId
    rw [hid] at he
    have hplain := hentry e he
    rw [← hnode.hasWildcard, hflag] at hplain
    cases hplain
  · have htokens : processWithPhrases
        (minePhrases .same (tokenizeRaw sevenText) ⟨∅, []⟩).phraseTrieRoot (tokenizeRaw sevenText) =
        [.phrase 17, .phrase 14, .wildcard [97] 14] := by decide +kernel
    rw [htokens]
    rintro ⟨-, ⟨e, he, hwild⟩, -⟩
    rw [hentry e he] at hwild
    cases hwild

/-! ### The codes of the entries -/

/-- The entry of a phrase: the placeholder at its slot and otherwise the codes of its words. -/
structure ValidEntry (decode : List Word) (m : Mark) (e : PhraseInfo) : Prop where
  hasWildcard : e.hasWildcard = m.slot.isSome
  wildcardPos : e.wildcardPos = m.slot.getD 0
  length : e.wordCodes.length = m.words.length
  codes : ∀ i code, e.wordCodes[i]? = some code →
    if e.hasWildcard = true ∧ i = e.wildcardPos then code = 4294967295
    else code.toNat < decode.length ∧ decode[code.toNat]? = m.words[i]?

/-- Every entry is valid for the phrase it was added for, and whatever is printed about the phrases
is defined. -/
structure EntriesValid (o : Orders) (main : MainDict) (tokens : List Word) : Prop where
  entries : List.Forall₂ (ValidEntry (minePhrases o tokens main).main.decode)
    (wildcardMarks o tokens ++ regularMarks o tokens) (minePhrases o tokens main).phraseDecode
  stats : ∀ sort c, c.mainDecode = (minePhrases o tokens main).main.decode →
    c.phraseDecode = (minePhrases o tokens main).phraseDecode → (printPhraseStats sort c).isSome

/-- No frequent pattern has a literal asterisk beside its slot. -/
def NoLiteralStar (tokens : List Word) : Prop :=
  ∀ occ ∈ selectedOccurrences tokens, star ∉ occ.window.eraseIdx occ.pos

lemma pattern_getElem? {occ : Occurrence} {i : ℕ} (hi : i ≠ occ.pos) :
    occ.pattern[i]? = occ.window[i]? := List.getElem?_set_ne hi.symm

lemma validEntry_pattern {occ : Occurrence} {decode : List Word} {e : PhraseInfo}
    (hstar : star ∉ occ.window.eraseIdx occ.pos)
    (h : Mark.Entry ⟨occ.pattern, some occ.pos⟩ decode e) :
    ValidEntry decode ⟨occ.pattern, some occ.pos⟩ e := by
  refine ⟨h.hasWildcard, h.wildcardPos, h.codes.length_eq.symm, fun i code hcode => ?_⟩
  have hwild : e.hasWildcard = true := h.hasWildcard
  have hpos : e.wildcardPos = occ.pos := h.wildcardPos
  obtain ⟨w, hw, hfor⟩ := forall₂_getElem? h.codes hcode
  change occ.pattern[i]? = some w at hw
  rw [hpos, hwild]
  by_cases hi : i = occ.pos
  · subst hi
    have hslot : w = star := by
      have hlt : occ.pos < occ.window.length := by
        simpa [Occurrence.pattern] using (List.getElem?_eq_some_iff.mp hw).1
      rw [Occurrence.pattern, List.getElem?_set_self hlt] at hw
      exact (Option.some.inj hw).symm
    rw [if_pos ⟨rfl, rfl⟩]
    rwa [Mark.CodeFor, if_pos ⟨rfl, hslot⟩] at hfor
  · have hword : w ≠ star := by
      rintro rfl
      rw [pattern_getElem? hi] at hw
      exact hstar (List.mem_eraseIdx_iff_getElem?.mpr ⟨i, hi, hw⟩)
    rw [Mark.CodeFor, if_neg fun hno => hword hno.2] at hfor
    rw [if_neg fun hno => hi hno.2]
    exact ⟨(List.getElem?_eq_some_iff.mp hfor).1, hfor.trans hw.symm⟩

lemma validEntry_ngram {p decode : List Word} {e : PhraseInfo} (h : Mark.Entry ⟨p, none⟩ decode e) :
    ValidEntry decode ⟨p, none⟩ e := by
  refine ⟨h.hasWildcard, h.wildcardPos, h.codes.length_eq.symm, fun i code hcode => ?_⟩
  have hplain : e.hasWildcard = false := h.hasWildcard
  obtain ⟨w, hw, hfor⟩ := forall₂_getElem? h.codes hcode
  rw [Mark.CodeFor, if_neg (by simp)] at hfor
  rw [if_neg (by simp [hplain])]
  exact ⟨(List.getElem?_eq_some_iff.mp hfor).1, hfor.trans hw.symm⟩

/-- The output loop gets through exactly if every code outside the slot is in range. -/
lemma expandCodes_eq_none_iff {decode : List Word} {slot : Option (ℕ × Word)} {codes : List UInt32}
    {i : ℕ} : (expandCodes decode slot i codes).2 = none ↔ ∀ k code, codes[k]? = some code →
      (∃ w, slot = some (i + k, w)) ∨ code.toNat < decode.length := by
  induction codes generalizing i with
  | nil => simp [expandCodes]
  | cons code codes ih =>
    have hsplit : (∀ k c, (code :: codes)[k]? = some c →
          (∃ w, slot = some (i + k, w)) ∨ c.toNat < decode.length) ↔
        ((∃ w, slot = some (i, w)) ∨ code.toNat < decode.length) ∧
          (expandCodes decode slot (i + 1) codes).2 = none := by
      rw [ih]
      refine ⟨fun h => ⟨h 0 code rfl, fun k c hc => ?_⟩, fun h k c hc => ?_⟩
      · have hk := h (k + 1) c (by simpa using hc)
        rwa [show i + (k + 1) = i + 1 + k by omega] at hk
      · cases k with
        | zero =>
          cases hc
          exact h.1
        | succ k =>
          have hk := h.2 k c (by simpa using hc)
          rwa [show i + 1 + k = i + (k + 1) by omega] at hk
    rw [hsplit, expandCodes.eq_def]
    dsimp only
    have hget : decode[code.toNat]? = none ↔ ¬ code.toNat < decode.length := by
      rw [List.getElem?_eq_none_iff, not_lt]
    rcases slot with - | ⟨pos, v⟩
    · cases hcode : decode[code.toNat]? with
      | none => simp [hget.mp hcode]
      | some w => simp [(List.getElem?_eq_some_iff.mp hcode).1]
    · by_cases hpos : i = pos
      · subst hpos
        simp
      · have hpos' : ¬ pos = i := fun heq => hpos heq.symm
        cases hcode : decode[code.toNat]? with
        | none => simp [hpos, hpos', hget.mp hcode]
        | some w => simp [hpos, hpos', (List.getElem?_eq_some_iff.mp hcode).1]

lemma phraseText_isSome_iff {p : PhraseInfo} {decode : List Word} :
    (phraseText p decode).isSome ↔ ∀ k code, p.wordCodes[k]? = some code →
      (p.hasWildcard = true ∧ k = p.wildcardPos) ∨ code.toNat < decode.length := by
  have hdone : (phraseText p decode).isSome ↔
      (expandCodes decode (if p.hasWildcard then some (p.wildcardPos, star) else none) 0
        p.wordCodes).2 = none := by
    unfold phraseText phraseWords
    rcases expandCodes decode (if p.hasWildcard then some (p.wildcardPos, star) else none) 0
      p.wordCodes with ⟨words, - | bad⟩ <;> simp
  rw [hdone, expandCodes_eq_none_iff]
  refine forall₂_congr fun k code => imp_congr_right fun _ => or_congr_left ?_
  cases p.hasWildcard with
  | false => simp
  | true => simp [eq_comm]

/-- `to_string` of a valid entry does not index out of range. -/
lemma phraseText_isSome {decode : List Word} {m : Mark} {e : PhraseInfo}
    (h : ValidEntry decode m e) : (phraseText e decode).isSome := by
  refine phraseText_isSome_iff.mpr fun k code hcode => ?_
  have hvalid := h.codes k code hcode
  by_cases hslot : e.hasWildcard = true ∧ k = e.wildcardPos
  · exact Or.inl hslot
  · rw [if_neg hslot] at hvalid
    exact Or.inr hvalid.1

lemma mapM_isSome_iff {α β : Type} {f : α → Option β} {l : List α} :
    (l.mapM f).isSome ↔ ∀ x ∈ l, (f x).isSome := by
  induction l with
  | nil => simp
  | cons x l ih =>
    rw [List.forall_mem_cons, ← ih, List.mapM_cons]
    cases f x with
    | none => simp
    | some y => cases l.mapM f <;> simp

/-- The list of the ten highest frequencies is the only part of the statistics that can fail. -/
lemma printPhraseStats_isSome_iff (sort : SortOrder (UInt32 × ℕ) fun a b => a.1 > b.1)
    (c : TwoTierTextCompressor) : (printPhraseStats sort c).isSome ↔
      ∀ x ∈ (sort.run (c.phraseDecode.zipIdx.map fun x => (x.1.frequency, x.2))).take 10,
        ∀ e, c.phraseDecode[x.2]? = some e → (phraseText e c.mainDecode).isSome := by
  have htop : (printPhraseStats sort c).isSome ↔
      (((sort.run (c.phraseDecode.zipIdx.map fun x : PhraseInfo × ℕ =>
        (x.1.frequency, x.2))).take 10).mapM fun x : UInt32 × ℕ => do
          let p ← c.phraseDecode[x.2]?
          let text ← phraseText p c.mainDecode
          some (p.frequency, text)).isSome := by
    unfold printPhraseStats
    dsimp only
    rw [Option.bind_eq_bind, Option.isSome_bind]
    simp
  rw [htop, mapM_isSome_iff]
  refine forall₂_congr fun x hx => ?_
  have hmem := (sort.perm _).mem_iff.mp (List.mem_of_mem_take hx)
  obtain ⟨⟨p, i⟩, hp, rfl⟩ := List.mem_map.mp hmem
  have hget : c.phraseDecode[i]? = some p := List.mk_mem_zipIdx_iff_getElem?.mp hp
  simp [hget, Option.isSome_bind]

section Entries

variable {tokens : List Word} (htok : ∀ w ∈ tokens, IsToken w) {main : MainDict} (h : main.Coherent)
  (o : Orders)
include htok h

lemma entriesValid_of_noLiteralStar
    (hsize : main.decode.length + (phraseWordSet tokens \ main.decode.toFinset).card ≤ 2 ^ 32)
    (hstar : NoLiteralStar tokens) : EntriesValid o main tokens := by
  obtain ⟨-, hlen, -⟩ := minePhrases_sizes htok o h
  have hentries := (marked_minePhrases htok h o).entries (hlen.trans_le hsize)
  have hvalid : List.Forall₂ (ValidEntry (minePhrases o tokens main).main.decode)
      (wildcardMarks o tokens ++ regularMarks o tokens)
      (minePhrases o tokens main).phraseDecode := by
    refine List.forall₂_iff_get.mpr ⟨hentries.length_eq, fun i hi hi' => ?_⟩
    have hentry := hentries.get hi hi'
    generalize (minePhrases o tokens main).phraseDecode.get ⟨i, hi'⟩ = e at hentry ⊢
    rcases List.mem_append.mp (List.get_mem _ ⟨i, hi⟩) with hm | hm
    · obtain ⟨occ, hocc, heq⟩ := (mem_wildcardMarks htok o).mp hm
      rw [heq] at hentry ⊢
      exact validEntry_pattern (hstar occ hocc) hentry
    · obtain ⟨p, -, heq⟩ := (mem_regularMarks htok o).mp hm
      rw [heq] at hentry ⊢
      exact validEntry_ngram hentry
  refine ⟨hvalid, fun sort c hmain hphrases =>
    (printPhraseStats_isSome_iff sort c).mpr fun x _ e he => ?_⟩
  rw [hphrases] at he
  obtain ⟨m, -, hm⟩ := forall₂_of_mem_right hvalid (List.mem_of_getElem? he)
  rw [hmain]
  exact phraseText_isSome hm

/-- The placeholder of a literal asterisk is no code of the dictionary. -/
lemma noLiteralStar_of_entriesValid
    (hsize : main.decode.length + (phraseWordSet tokens \ main.decode.toFinset).card < 2 ^ 32)
    (hvalid : EntriesValid o main tokens) : NoLiteralStar tokens := by
  obtain ⟨-, hlen, -⟩ := minePhrases_sizes htok o h
  have hentries := (marked_minePhrases htok h o).entries (hlen.trans_le hsize.le)
  have hboth := hentries.mp (fun _ _ hentry hv => And.intro hentry hv) hvalid.entries
  intro occ hocc hmem
  obtain ⟨i, hi, hwindow⟩ := List.mem_eraseIdx_iff_getElem?.mp hmem
  obtain ⟨e, -, hentry, hv⟩ := forall₂_of_mem_left hboth
    (List.mem_append_left _ ((mem_wildcardMarks htok o).mpr ⟨occ, hocc, rfl⟩))
  have hword : occ.pattern[i]? = some star := by rw [pattern_getElem? hi, hwindow]
  have hlt : i < e.wordCodes.length := by
    rw [hv.length]
    exact (List.getElem?_eq_some_iff.mp hword).1
  obtain ⟨w, hw, hfor⟩ := forall₂_getElem? hentry.codes (List.getElem?_eq_getElem hlt)
  obtain rfl : star = w := Option.some.inj (hword.symm.trans hw)
  rw [Mark.CodeFor, if_pos ⟨rfl, rfl⟩] at hfor
  have hcode := hv.codes i _ (List.getElem?_eq_getElem hlt)
  have hpos : e.wildcardPos = occ.pos := hv.wildcardPos
  rw [if_neg fun hno => hi (hno.2.trans hpos), hfor, hlen] at hcode
  have hbig : (4294967295 : UInt32).toNat = 2 ^ 32 - 1 := rfl
  omega

end Entries

/-- For every text, every order of traversal and every dictionary: within 32-bit sizes the entries
hold valid codes and can be printed exactly if no frequent pattern has a literal asterisk beside its
slot. -/
theorem entriesValid_iff (text : List UInt8) (o : Orders) {main : MainDict} (h : main.Coherent) :
    (main.decode.length + (phraseWordSet (tokenizeRaw text) \ main.decode.toFinset).card ≤ 2 ^ 32 ∧
        NoLiteralStar (tokenizeRaw text) → EntriesValid o main (tokenizeRaw text)) ∧
    (main.decode.length + (phraseWordSet (tokenizeRaw text) \ main.decode.toFinset).card < 2 ^ 32 →
      EntriesValid o main (tokenizeRaw text) → NoLiteralStar (tokenizeRaw text)) := by
  have htok : ∀ w ∈ tokenizeRaw text, IsToken w := fun w hw => tokenizeRaw_isToken hw
  refine ⟨fun hcond => ?_, fun hsize hvalid => ?_⟩
  · exact entriesValid_of_noLiteralStar htok h o hcond.1 hcond.2
  · exact noLiteralStar_of_entriesValid htok h o hsize hvalid

theorem entriesValid_slotText : EntriesValid .same ⟨∅, []⟩ (tokenizeRaw slotText) := by
  refine (entriesValid_iff slotText .same coherent_empty).1 ⟨?_, ?_⟩
  · decide +kernel
  · unfold NoLiteralStar
    decide +kernel

/-- The word list `a` and the text `* a * a`, in which `* a` with its slot at `a` is the pattern
`* *`. -/
def starFiles : CompressFiles where
  dictionary := some [97, 10]
  input := some [42, 32, 97, 32, 42, 32, 97]

theorem not_entriesValid_starFiles :
    ¬ EntriesValid .same ⟨∅, []⟩ (tokenizeRaw [42, 32, 97, 32, 42, 32, 97]) ∧
      (compress stableChoices starFiles {}).status = .undefinedIndex := by
  refine ⟨fun hvalid => ?_, by decide +kernel⟩
  have hentry : (minePhrases .same (tokenizeRaw [42, 32, 97, 32, 42, 32, 97]) ⟨∅, []⟩).phraseDecode[0]? =
      some ⟨[4294967295, 4294967295], 2, true, 1⟩ := by decide +kernel
  have hsize : (minePhrases .same (tokenizeRaw [42, 32, 97, 32, 42, 32, 97])
      ⟨∅, []⟩).main.decode.length = 2 := by decide +kernel
  obtain ⟨m, -, hm⟩ := forall₂_getElem? hvalid.entries hentry
  have hcode := hm.codes 0 4294967295 rfl
  rw [if_neg (by decide), hsize] at hcode
  exact absurd hcode.1 (by decide)

end HashCompress.PhraseMining
