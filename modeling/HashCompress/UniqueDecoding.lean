import HashCompress.CodecAgreement
import HashCompress.PrefixCode

/-!
# When the compressed format is uniquely decodable

The bits of an item form a prefix code unless the single tag bit of a local word and the two tag
bits of a phrase are confused; the zeros that `flush` adds can be taken for further main words,
since neither a count nor an end mark is written.
-/
namespace HashCompress.CodecAgreement

open BitList BitIO CodeTables TokenCodec PrefixCode

/-- Different sequences of well-formed items are written to different buffers behind the header. -/
def UniquelyDecodable (e : EncodeTables) (d : DecodeTables) (header : List UInt8) : Prop :=
  ∀ items items' : List Item, (∀ item ∈ items, item.WellFormed e d) →
    (∀ item ∈ items', item.WellFormed e d) →
    items.flatMap Item.tokens ≠ items'.flatMap Item.tokens →
    ∃ bw bw', writeTokens e ⟨header, 0, 0⟩ (items.flatMap Item.tokens) = .ok bw ∧
      writeTokens e ⟨header, 0, 0⟩ (items'.flatMap Item.tokens) = .ok bw' ∧
      bw.flush.buffer ≠ bw'.flush.buffer

def localBits (e : EncodeTables) (code : UInt32) : List Bool :=
  true :: natBits e.localWidth code.toNat

def phraseBits (e : EncodeTables) (phraseId : UInt32) : List Bool :=
  true :: false :: natBits e.phraseWidth phraseId.toNat

/-- No local word's tag and code begin like a phrase's tag and number, or the other way round. -/
def TagsDistinct (e : EncodeTables) (d : DecodeTables) : Prop :=
  ∀ w code phraseId, e.mainEncode.lookup w = none → e.localEncode.lookup w = some code →
    (d.phraseDecode[phraseId.toNat]?).isSome →
    ¬ localBits e code <+: phraseBits e phraseId ∧ ¬ phraseBits e phraseId <+: localBits e code

/-- A main word takes at least a byte, or no main word is written as zeros. -/
def PaddingDistinct (e : EncodeTables) : Prop :=
  7 ≤ e.mainWidth ∨ ∀ w, e.mainEncode.lookup w ≠ some 0

lemma wordBits_main {e : EncodeTables} {w : Word} {code : UInt32}
    (h : e.mainEncode.lookup w = some code) :
    wordBits e w = false :: natBits e.mainWidth code.toNat := by
  simp [wordBits, h]

lemma wordBits_local {e : EncodeTables} {w : Word} {code : UInt32}
    (hmain : e.mainEncode.lookup w = none) (h : e.localEncode.lookup w = some code) :
    wordBits e w = localBits e code := by
  simp [wordBits, localBits, hmain, h]

lemma itemBits_wildcard (e : EncodeTables) (phraseId : UInt32) (w : Word) :
    itemBits e (.wildcard phraseId w) = phraseBits e phraseId ++ (true :: true :: wordBits e w) := rfl

/-- How a word is written: with its main code or with its local code. -/
inductive WordCode (e : EncodeTables) (w : Word) : Prop where
  | main (code : UInt32) (h : e.mainEncode.lookup w = some code)
  | rare (code : UInt32) (hmain : e.mainEncode.lookup w = none)
      (h : e.localEncode.lookup w = some code)

lemma wordCode_of_known {e : EncodeTables} {w : Word}
    (h : (e.mainEncode.lookup w).isSome ∨ (e.localEncode.lookup w).isSome) : WordCode e w := by
  cases hmain : e.mainEncode.lookup w with
  | some code => exact .main code hmain
  | none =>
    rw [hmain] at h
    obtain ⟨code, hcode⟩ := Option.isSome_iff_exists.mp (h.resolve_left (by simp))
    exact .rare code hmain hcode

lemma itemBits_main {e : EncodeTables} {d : DecodeTables} {w : Word}
    (hw : Item.WellFormed e d (.main w)) :
    ∃ code, e.mainEncode.lookup w = some code ∧
      itemBits e (.main w) = false :: natBits e.mainWidth code.toNat := by
  obtain ⟨code, hcode⟩ := Option.isSome_iff_exists.mp hw
  exact ⟨code, hcode, wordBits_main hcode⟩

lemma itemBits_rare {e : EncodeTables} {d : DecodeTables} {w : Word}
    (hw : Item.WellFormed e d (.rare w)) :
    ∃ code, e.localEncode.lookup w = some code ∧ itemBits e (.rare w) = localBits e code := by
  obtain ⟨code, hcode⟩ := Option.isSome_iff_exists.mp hw.2
  exact ⟨code, hcode, wordBits_local hw.1 hcode⟩

/-- Codes of one dictionary are written with one width, so the bits of a code tell the word. -/
lemma eq_of_code_prefix {words : List Word} {width : ℕ} (hfits : words.length ≤ 2 ^ width)
    {w w' : Word} {code code' : UInt32} (hw : words[code.toNat]? = some w)
    (hw' : words[code'.toNat]? = some w')
    (hpre : natBits width code.toNat <+: natBits width code'.toNat) : w = w' := by
  have heq := natBits_inj (hpre.eq_of_length (by simp)) (code_lt hfits hw) (code_lt hfits hw')
  rw [heq, hw'] at hw
  exact (Option.some.inj hw).symm

section PrefixFree

variable {e : EncodeTables} {d : DecodeTables} (h : TablesAgree e d)
include h

lemma wordBits_prefixFree {w w' : Word} (hw : WordCode e w) (hw' : WordCode e w')
    (hpre : wordBits e w <+: wordBits e w') : w = w' := by
  cases hw with
  | main code hcode =>
    cases hw' with
    | main code' hcode' =>
      rw [wordBits_main hcode, wordBits_main hcode', List.cons_prefix_cons, h.mainWidth] at hpre
      exact eq_of_code_prefix h.mainFits (h.main w code hcode) (h.main w' code' hcode') hpre.2
    | rare code' hmain' hcode' =>
      rw [wordBits_main hcode, wordBits_local hmain' hcode', localBits, List.cons_prefix_cons] at hpre
      cases hpre.1
  | rare code hmain hcode =>
    cases hw' with
    | main code' hcode' =>
      rw [wordBits_local hmain hcode, wordBits_main hcode', localBits, List.cons_prefix_cons] at hpre
      cases hpre.1
    | rare code' hmain' hcode' =>
      rw [wordBits_local hmain hcode, wordBits_local hmain' hcode', localBits, localBits,
        List.cons_prefix_cons, h.localWidth] at hpre
      exact eq_of_code_prefix h.localFits (h.rare w code hcode) (h.rare w' code' hcode') hpre.2

lemma phraseBits_prefixFree {i j : UInt32} {p q : PhraseInfo}
    (hp : d.phraseDecode[i.toNat]? = some p) (hq : d.phraseDecode[j.toNat]? = some q)
    (hpre : phraseBits e i <+: phraseBits e j) : i = j := by
  have hi := (List.getElem?_eq_some_iff.mp hp).1.trans_le h.phraseFits
  have hj := (List.getElem?_eq_some_iff.mp hq).1.trans_le h.phraseFits
  rw [← h.phraseWidth] at hi hj
  rw [phraseBits, phraseBits, List.cons_prefix_cons, List.cons_prefix_cons] at hpre
  exact UInt32.toNat_inj.mp (natBits_inj (hpre.2.2.eq_of_length (by simp)) hi hj)

lemma itemBits_main_prefix {w : Word} (hw : Item.WellFormed e d (.main w)) {item : Item}
    (hitem : item.WellFormed e d) (hpre : itemBits e (.main w) <+: itemBits e item) :
    Item.main w = item := by
  obtain ⟨code, hcode, hbits⟩ := itemBits_main hw
  cases item with
  | main w' =>
    rw [wordBits_prefixFree h (.main code hcode) (wordCode_of_known (Or.inl hitem)) hpre]
  | rare w' =>
    obtain ⟨code', -, hbits'⟩ := itemBits_rare hitem
    rw [hbits, hbits', localBits, List.cons_prefix_cons] at hpre
    cases hpre.1
  | phrase phraseId =>
    rw [hbits, itemBits, List.cons_prefix_cons] at hpre
    cases hpre.1
  | wildcard phraseId w' =>
    rw [hbits, itemBits, List.cons_prefix_cons] at hpre
    cases hpre.1

variable (htags : TagsDistinct e d)
include htags

lemma itemBits_rare_prefix {w : Word} (hw : Item.WellFormed e d (.rare w)) {item : Item}
    (hitem : item.WellFormed e d) (hpre : itemBits e (.rare w) <+: itemBits e item) :
    Item.rare w = item := by
  obtain ⟨code, hcode, hbits⟩ := itemBits_rare hw
  cases item with
  | main w' =>
    obtain ⟨code', -, hbits'⟩ := itemBits_main hitem
    rw [hbits, hbits', localBits, List.cons_prefix_cons] at hpre
    cases hpre.1
  | rare w' =>
    rw [wordBits_prefixFree h (.rare code hw.1 hcode) (wordCode_of_known (Or.inr hitem.2)) hpre]
  | phrase phraseId =>
    obtain ⟨p, hp, -⟩ := hitem
    rw [hbits] at hpre
    exact absurd hpre (htags w code phraseId hw.1 hcode (by simp [hp])).1
  | wildcard phraseId w' =>
    obtain ⟨⟨p, hp, -⟩, -⟩ := hitem
    rw [hbits, itemBits_wildcard] at hpre
    have hphrase : phraseBits e phraseId <+: phraseBits e phraseId ++ (true :: true :: wordBits e w') :=
      List.prefix_append _ _
    have hdistinct := htags w code phraseId hw.1 hcode (by simp [hp])
    rcases List.prefix_or_prefix_of_prefix hpre hphrase with hlocal | hlocal
    · exact absurd hlocal hdistinct.1
    · exact absurd hlocal hdistinct.2

/-- Whatever begins with the tag and the number of a phrase is that phrase, with or without a word
in its slot. -/
lemma phraseBits_prefix {i : UInt32} {p : PhraseInfo} (hp : d.phraseDecode[i.toNat]? = some p)
    {item : Item} (hitem : item.WellFormed e d) (hpre : phraseBits e i <+: itemBits e item) :
    (p.hasWildcard = false ∧ item = .phrase i) ∨ (p.hasWildcard = true ∧ ∃ w, item = .wildcard i w) := by
  cases item with
  | main w =>
    obtain ⟨code, -, hbits⟩ := itemBits_main hitem
    rw [hbits, phraseBits, List.cons_prefix_cons] at hpre
    cases hpre.1
  | rare w =>
    obtain ⟨code, hcode, hbits⟩ := itemBits_rare hitem
    rw [hbits] at hpre
    exact absurd hpre (htags w code i hitem.1 hcode (by simp [hp])).2
  | phrase j =>
    obtain ⟨q, hq, hplain⟩ := hitem
    obtain rfl : i = j := phraseBits_prefixFree h hp hq hpre
    rw [hp] at hq
    cases hq
    exact Or.inl ⟨hplain, rfl⟩
  | wildcard j w =>
    obtain ⟨⟨q, hq, hwild⟩, -⟩ := hitem
    rw [itemBits_wildcard] at hpre
    have hsame : phraseBits e i <+: phraseBits e j :=
      List.prefix_of_prefix_length_le hpre (List.prefix_append _ _) (by simp [phraseBits])
    obtain rfl : i = j := phraseBits_prefixFree h hp hq hsame
    rw [hp] at hq
    cases hq
    exact Or.inr ⟨hwild, w, rfl⟩

/-- With the tags apart, the bits of the items are a prefix code. -/
theorem itemBits_prefixFree : PrefixFree {item | item.WellFormed e d} (itemBits e) := by
  intro item hitem item' hitem' hpre
  cases item with
  | main w => exact itemBits_main_prefix h hitem hitem' hpre
  | rare w => exact itemBits_rare_prefix h htags hitem hitem' hpre
  | phrase i =>
    obtain ⟨p, hp, hplain⟩ := hitem
    rcases phraseBits_prefix h htags hp hitem' hpre with ⟨-, heq⟩ | ⟨hwild, -⟩
    · exact heq.symm
    · rw [hplain] at hwild
      cases hwild
  | wildcard i w =>
    obtain ⟨⟨p, hp, hwild⟩, hknown⟩ := hitem
    rw [itemBits_wildcard] at hpre
    rcases phraseBits_prefix h htags hp hitem' ((List.prefix_append _ _).trans hpre) with
      ⟨hplain, -⟩ | ⟨-, w', rfl⟩
    · rw [hwild] at hplain
      cases hplain
    · rw [itemBits_wildcard, List.prefix_append_right_inj, List.cons_prefix_cons,
        List.cons_prefix_cons] at hpre
      rw [wordBits_prefixFree h (wordCode_of_known hknown) (wordCode_of_known hitem'.2) hpre.2.2]

end PrefixFree

/-! ### The padding -/

/-- An item without a one is a main word with code 0. -/
lemma item_of_zeros {e : EncodeTables} {d : DecodeTables} (h : TablesAgree e d) {item : Item}
    (hitem : item.WellFormed e d) (hzero : true ∉ itemBits e item) :
    ∃ w, item = .main w ∧ e.mainEncode.lookup w = some 0 := by
  cases item with
  | main w =>
    obtain ⟨code, hcode, hbits⟩ := itemBits_main hitem
    have hlt := code_lt h.mainFits (h.main w code hcode)
    rw [← h.mainWidth] at hlt
    have hnat : natBits e.mainWidth code.toNat = natBits e.mainWidth 0 := by
      rw [natBits_zero, List.eq_replicate_iff]
      refine ⟨natBits_length _ _, fun b hb => ?_⟩
      rw [hbits] at hzero
      cases b with
      | false => rfl
      | true => exact absurd (List.mem_cons_of_mem _ hb) hzero
    have hcode0 : code = 0 := UInt32.toNat_inj.mp (natBits_inj hnat hlt (Nat.two_pow_pos _))
    exact ⟨w, rfl, hcode0 ▸ hcode⟩
  | rare w =>
    obtain ⟨code, -, hbits⟩ := itemBits_rare hitem
    rw [hbits, localBits] at hzero
    exact absurd List.mem_cons_self hzero
  | phrase phraseId => exact absurd List.mem_cons_self hzero
  | wildcard phraseId w => exact absurd List.mem_cons_self hzero

lemma padding_le (e : EncodeTables) (items : List Item) : padding e items ≤ 7 := by
  unfold padding
  omega

/-- Items that fit into the padding are none at all. -/
lemma eq_nil_of_padding {e : EncodeTables} {d : DecodeTables} (h : TablesAgree e d)
    (hpad : PaddingDistinct e) {items : List Item} (hw : ∀ item ∈ items, item.WellFormed e d)
    {m n : ℕ} (hm : m ≤ 7)
    (heq : items.flatMap (itemBits e) ++ List.replicate n false = List.replicate m false) :
    items = [] := by
  cases items with
  | nil => rfl
  | cons item items =>
    have hbits : itemBits e item ++ (items.flatMap (itemBits e) ++ List.replicate n false) =
        List.replicate m false := by rw [← heq, List.flatMap_cons, List.append_assoc]
    have hzero : true ∉ itemBits e item := by
      intro hmem
      have hall := List.mem_append_left (items.flatMap (itemBits e) ++ List.replicate n false) hmem
      rw [hbits] at hall
      simp at hall
    obtain ⟨w, rfl, hcode⟩ := item_of_zeros h (hw item List.mem_cons_self) hzero
    have hlen := congrArg List.length hbits
    have hmain := itemBits_length_main (hw (.main w) List.mem_cons_self) trivial
    rw [List.length_append, hmain, List.length_replicate] at hlen
    rcases hpad with hwide | hnone
    · omega
    · exact absurd hcode (hnone w)

lemma uniquelyDecodable_of_distinct {e : EncodeTables} {d : DecodeTables} (h : TablesAgree e d)
    (header : List UInt8) (htags : TagsDistinct e d) (hpad : PaddingDistinct e) :
    UniquelyDecodable e d header := by
  intro items items' hw hw' hne
  obtain ⟨bw, hwrite, hbits⟩ := bytesBits_written header hw
  obtain ⟨bw', hwrite', hbits'⟩ := bytesBits_written header hw'
  refine ⟨bw, bw', hwrite, hwrite', fun hbuffer => hne ?_⟩
  rw [hbuffer, hbits'] at hbits
  have hfilled := List.append_cancel_left hbits.symm
  obtain ⟨rest, ⟨rfl, hrest⟩ | ⟨rfl, hrest⟩⟩ :=
    (itemBits_prefixFree h htags).flatMap_filled hw hw' hfilled
  · have hnil := eq_nil_of_padding h hpad (fun i hi => hw' i (List.mem_append_right _ hi))
      (padding_le e items) hrest
    rw [hnil, List.append_nil]
  · have hnil := eq_nil_of_padding h hpad (fun i hi => hw i (List.mem_append_right _ hi))
      (padding_le e items') hrest
    rw [hnil, List.append_nil]

/-- Copies of the main word 0 are zeros, and so is the padding behind them. -/
lemma zeros_written {e : EncodeTables} {w : Word} (hw : e.mainEncode.lookup w = some 0) (k : ℕ) :
    (List.replicate k (Item.main w)).flatMap (itemBits e) ++
        List.replicate (padding e (List.replicate k (.main w))) false =
      List.replicate (k * (1 + e.mainWidth) + (8 - k * (1 + e.mainWidth) % 8) % 8) false := by
  have hbits : itemBits e (.main w) = List.replicate (1 + e.mainWidth) false := by
    rw [itemBits, wordBits_main hw, UInt32.toNat_zero, natBits_zero, Nat.add_comm,
      List.replicate_succ]
  have hcopies : (List.replicate k (Item.main w)).flatMap (itemBits e) =
      List.replicate (k * (1 + e.mainWidth)) false := by
    rw [List.flatMap_replicate, hbits, List.flatten_replicate_replicate]
  rw [padding, hcopies, List.length_replicate, List.replicate_append_replicate]

/-- If a main word takes less than a byte, seven copies of the word 0 and eight copies take the same
number of bytes. -/
lemma paddingDistinct_of_uniquelyDecodable {e : EncodeTables} {d : DecodeTables}
    {header : List UInt8} (h : UniquelyDecodable e d header) : PaddingDistinct e := by
  by_contra hpad
  unfold PaddingDistinct at hpad
  push Not at hpad
  obtain ⟨hnarrow, w, hw⟩ := hpad
  have hwell : ∀ k, ∀ item ∈ List.replicate k (Item.main w), item.WellFormed e d := by
    intro k item hi
    rw [List.eq_of_mem_replicate hi]
    simp [Item.WellFormed, hw]
  have hlen : (List.replicate 7 (Item.main w)).flatMap Item.tokens ≠
      (List.replicate 8 (Item.main w)).flatMap Item.tokens := by simp [Item.tokens]
  obtain ⟨bw, bw', hwrite, hwrite', hne⟩ := h _ _ (hwell 7) (hwell 8) hlen
  obtain ⟨bw₁, hwrite₁, hbits₁⟩ := bytesBits_written header (hwell 7)
  obtain ⟨bw₂, hwrite₂, hbits₂⟩ := bytesBits_written header (hwell 8)
  obtain rfl : bw = bw₁ := Except.ok.inj (hwrite.symm.trans hwrite₁)
  obtain rfl : bw' = bw₂ := Except.ok.inj (hwrite'.symm.trans hwrite₂)
  refine hne (bytesBits_inj ?_)
  rw [hbits₁, hbits₂, zeros_written hw, zeros_written hw]
  congr 2
  omega

/-- For all dictionaries and sufficient widths: the format is uniquely decodable if local words and
phrases are told apart by their first bits and no main word looks like padding, and the latter is
necessary. -/
theorem uniquelyDecodable_of_tables {e : EncodeTables} {d : DecodeTables} (h : TablesAgree e d)
    (header : List UInt8) :
    (TagsDistinct e d ∧ PaddingDistinct e → UniquelyDecodable e d header) ∧
      (UniquelyDecodable e d header → PaddingDistinct e) :=
  ⟨fun hcond => uniquelyDecodable_of_distinct h header hcond.1 hcond.2,
    paddingDistinct_of_uniquelyDecodable⟩

/-- The sample tables with seven bits for a main word. -/
def wideEncode : EncodeTables := { sampleEncode with mainWidth := 7 }

def wideDecode : DecodeTables := { sampleDecode with mainWidth := 7 }

lemma wide_tablesAgree : TablesAgree wideEncode wideDecode where
  main _ _ := sample_lookup
  rare := sample_tablesAgree.rare
  mainWidth := rfl
  localWidth := rfl
  phraseWidth := rfl
  mainFits := by decide
  localFits := by decide
  phraseFits := by decide
  phraseLength := by decide

theorem uniquelyDecodable_wide : UniquelyDecodable wideEncode wideDecode [0, 0] := by
  refine (uniquelyDecodable_of_tables wide_tablesAgree [0, 0]).1 ⟨?_, Or.inl le_rfl⟩
  intro w code phraseId hmain hlocal
  rw [wideEncode, sampleEncode, AList.lookup_empty] at hlocal
  cases hlocal

/-- One `a` and two are the same byte behind the header. -/
theorem not_uniquelyDecodable_sample : TablesAgree sampleEncode sampleDecode ∧
    (∃ bw bw', writeTokens sampleEncode ⟨[0, 0], 0, 0⟩ [.word wordA] = .ok bw ∧
      writeTokens sampleEncode ⟨[0, 0], 0, 0⟩ [.word wordA, .word wordA] = .ok bw' ∧
      bw.flush.buffer = [0, 0, 0] ∧ bw'.flush.buffer = [0, 0, 0]) ∧
    ¬ UniquelyDecodable sampleEncode sampleDecode [0, 0] := by
  refine ⟨sample_tablesAgree, ⟨_, _, rfl, rfl, by decide, by decide⟩, fun h => ?_⟩
  have hwell : Item.WellFormed sampleEncode sampleDecode (.main wordA) := rfl
  obtain ⟨bw, bw', hwrite, hwrite', hne⟩ := h [.main wordA] [.main wordA, .main wordA]
    (by simpa using hwell) (by simpa using hwell) (by decide)
  cases hwrite
  cases hwrite'
  exact hne (by decide)

end HashCompress.CodecAgreement
