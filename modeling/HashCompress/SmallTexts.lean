import HashCompress.CompressedFormat
import HashCompress.PhraseFree

/-!
# Texts with few n-grams

With fewer than 1000 different n-grams every n-gram of a text becomes a phrase, so the text is cut
into pieces of five tokens, and a fresh object writes each of them as the same two bits.
-/
namespace HashCompress.Compressor

open BitList BitIO WordText TallyMap KeyTrie CodeTables TokenCodec CodecAgreement TokenLoop
open PhraseMining PhraseSegment Tokenizer RegularPhrases PhraseFree

/-- A frequent pattern loses at least its asterisk on the way into the trie. -/
lemma starred_length {tokens p : List Word} (h : Starred tokens p) : p.length ≤ 4 := by
  obtain ⟨o, ho, -, rfl⟩ := h
  have hlt : (o.pattern.filter (· != star)).length < o.pattern.length :=
    List.length_filter_lt_length_iff_exists.mpr ⟨star, star_mem_pattern ho, by simp⟩
  have hle := (pattern_bounds ho).2.1
  omega

section FewNgrams

variable {tokens : List Word} (hsize : tokens.length < 2 ^ 32)
  (hfew : {p | IsNgram tokens p}.ncard < 1000)
include hsize hfew

lemma registered_of_few {p : List Word} (hp : IsNgram tokens p) : Registered tokens p :=
  (registered_iff_isPhrase hsize).mpr (isPhrase_of_few hp hfew)

/-- Every word of the text is in one of its n-grams, unless it is the only one. -/
lemma mem_phraseWordSet_of_few (htwo : 2 ≤ tokens.length) {w : Word} (hw : w ∈ tokens) :
    w ∈ phraseWordSet tokens := by
  obtain ⟨before, after, rfl⟩ := List.append_of_mem hw
  have hgram : ∃ p, IsNgram (before ++ w :: after) p ∧ w ∈ p := by
    cases after with
    | cons next after =>
      exact ⟨[w, next], ⟨by simp, by simp, before, after, by simp⟩, by simp⟩
    | nil =>
      rcases List.eq_nil_or_concat before with rfl | ⟨before, last, rfl⟩
      · simp at htwo
      · exact ⟨[last, w], ⟨by simp, by simp, before, [], by simp⟩, by simp⟩
  obtain ⟨p, hp, hwp⟩ := hgram
  have hreg := mem_registeredNgrams.mpr (registered_of_few hsize hfew hp)
  simp only [phraseWordSet, Finset.mem_union, List.mem_toFinset, List.mem_flatMap, id_eq]
  exact Or.inr ⟨p, hreg, hwp⟩

/-- Five tokens of the text are a phrase of the trie, and one without a wildcard. -/
lemma matchPhrase_five (htok : ∀ w ∈ tokens, IsToken w) {main : MainDict} (h : main.Coherent)
    (o : Orders) {rest : List Word} (hrest : rest <:+ tokens) (hfive : 5 ≤ rest.length) :
    let root := (minePhrases o tokens main).phraseTrieRoot
    (matchPhrase root rest).lastMatch = some (root.infoAt {} (rest.take 5), 5) ∧
      (root.infoAt {} (rest.take 5)).hasWildcard = false := by
  intro root
  have hlen : (rest.take 5).length = 5 := List.length_take_of_le hfive
  have hgram : IsNgram tokens (rest.take 5) :=
    ⟨by omega, by omega, (List.take_prefix 5 rest).isInfix.trans hrest.isInfix⟩
  have hends : EndsAt root (rest.take 5) :=
    (endsAt_minePhrases htok h o _).mpr (Or.inr (registered_of_few hsize hfew hgram))
  have hlong : Longest (EndsAt root) 5 rest 5 :=
    ⟨by omega, le_rfl, hfive, hends, fun k hk hle => absurd hle (by omega)⟩
  refine ⟨?_, ?_⟩
  · rcases matchPhrase_spec root rest with ⟨n, hn, hmatch⟩ | ⟨hno, -⟩
    · obtain rfl := hn.unique hlong
      exact hmatch
    · exact absurd hlong hno.not_longest
  · rw [← Bool.not_eq_true, hasWildcard_minePhrases htok h o]
    intro hstar
    have := starred_length hstar
    omega

/-- Pieces of five tokens as long as there are five. -/
lemma processLoop_fives (htok : ∀ w ∈ tokens, IsToken w) {main : MainDict} (h : main.Coherent)
    (o : Orders) {rest : List Word} (hrest : rest <:+ tokens) {fuel pieces : ℕ}
    (hlen : rest.length = 5 * pieces) (hfuel : pieces ≤ fuel) :
    ∃ ids : List UInt32, ids.length = pieces ∧
      processLoop (minePhrases o tokens main).phraseTrieRoot fuel rest = ids.map .phrase := by
  induction pieces generalizing rest fuel with
  | zero =>
    obtain rfl : rest = [] := List.eq_nil_of_length_eq_zero (by omega)
    exact ⟨[], rfl, by cases fuel <;> rfl⟩
  | succ pieces ih =>
    obtain ⟨fuel, rfl⟩ : ∃ fuel', fuel = fuel' + 1 := ⟨fuel - 1, by omega⟩
    obtain ⟨ids, hids, hloop⟩ := ih ((List.drop_suffix 5 rest).trans hrest)
      (by rw [List.length_drop]; omega) (show pieces ≤ fuel by omega)
    obtain ⟨hmatch, hplain⟩ := matchPhrase_five hsize hfew htok h o hrest (by omega)
    cases rest with
    | nil => simp at hlen
    | cons token rest =>
      refine ⟨((minePhrases o tokens main).phraseTrieRoot.infoAt {}
        ((token :: rest).take 5)).phraseId :: ids, by rw [List.length_cons, hids], ?_⟩
      rw [processLoop, hmatch]
      dsimp only
      rw [matchTokens, hplain, if_neg Bool.false_ne_true, hloop]
      rfl

end FewNgrams

/-- The last byte, for fewer than four pieces. -/
def lastPieces : ℕ → List UInt8
  | 0 => []
  | 1 => [0x80]
  | 2 => [0xA0]
  | _ => [0xA8]

/-- The file for a number of pieces: an empty local dictionary and the bits 10 for each piece. -/
def piecesBytes (pieces : ℕ) : List UInt8 :=
  [0, 0] ++ List.replicate (pieces / 4) 0xAA ++ lastPieces (pieces % 4)

def pieceBits (pieces : ℕ) : List Bool := (List.replicate pieces [true, false]).flatten

lemma pieceBits_add (a b : ℕ) : pieceBits (a + b) = pieceBits a ++ pieceBits b := by
  rw [pieceBits, List.replicate_add, List.flatten_append]
  rfl

lemma pieceBits_length (pieces : ℕ) : (pieceBits pieces).length = 2 * pieces := by
  simp [pieceBits, Nat.mul_comm]

lemma bytesBits_fours (n : ℕ) : bytesBits (List.replicate n 0xAA) = pieceBits (4 * n) := by
  induction n with
  | zero => rfl
  | succ n ih =>
    rw [List.replicate_succ, bytesBits_cons, ih, Nat.mul_succ, Nat.add_comm, pieceBits_add]
    rfl

lemma bytesBits_piecesBytes (pieces : ℕ) : bytesBits (piecesBytes pieces) =
    List.replicate 16 false ++ pieceBits pieces ++
      List.replicate ((8 - (16 + 2 * pieces) % 8) % 8) false := by
  have hlast : ∀ r < 4, bytesBits (lastPieces r) =
      pieceBits r ++ List.replicate ((8 - 2 * r) % 8) false := by decide
  have hsplit : pieces = 4 * (pieces / 4) + pieces % 4 := (Nat.div_add_mod pieces 4).symm
  have hpad : (8 - (16 + 2 * pieces) % 8) % 8 = (8 - 2 * (pieces % 4)) % 8 := by omega
  rw [piecesBytes, bytesBits_append, bytesBits_append, bytesBits_fours,
    hlast _ (Nat.mod_lt _ (by omega)), hpad]
  conv_rhs => rw [hsplit, pieceBits_add]
  rw [Nat.mul_add_mod, Nat.mod_mod]
  simp only [List.append_assoc]
  rfl

lemma ncard_ngrams (tokens : List Word) :
    {p | IsNgram tokens p}.ncard = (buildNgrams tokens 2 5).toFinset.card := by
  rw [← Set.ncard_coe_finset]
  congr 1
  ext p
  rw [List.coe_toFinset]
  exact mem_buildNgrams_iff.symm

/-- The word list `a` and the text `a b c d e`. -/
def fiveWordFiles : CompressFiles where
  dictionary := some [0x61, 10]
  input := some [0x61, 32, 0x62, 32, 0x63, 32, 0x64, 32, 0x65]

end HashCompress.Compressor
