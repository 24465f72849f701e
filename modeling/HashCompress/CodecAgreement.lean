import HashCompress.TokenCodec

/-!
# When the token reader undoes the token writer

The writer tags a local word with the single bit 1, a phrase with 10 and a wildcard word with 11;
the reader takes 10 for a local word and 11 for a phrase. The streams on which the two agree are
determined here.
-/
namespace HashCompress.CodecAgreement

open BitList BitIO CodeTables TokenCodec

/-- The same dictionaries and widths on both sides, as the phrase passes and
`build_local_dictionary` leave them. -/
structure TablesAgree (e : EncodeTables) (d : DecodeTables) : Prop where
  main : ∀ w code, e.mainEncode.lookup w = some code → d.mainDecode[code.toNat]? = some w
  rare : ∀ w code, e.localEncode.lookup w = some code → d.localDecode[code.toNat]? = some w
  mainWidth : e.mainWidth = d.mainWidth
  localWidth : e.localWidth = d.localWidth
  phraseWidth : e.phraseWidth = d.phraseWidth
  mainFits : d.mainDecode.length ≤ 2 ^ d.mainWidth
  localFits : d.localDecode.length ≤ 2 ^ d.localWidth
  phraseFits : d.phraseDecode.length ≤ 2 ^ d.phraseWidth
  phraseLength : ∀ p ∈ d.phraseDecode, 2 ≤ p.wordCodes.length

inductive Item where
  | main (w : Word)
  | rare (w : Word)
  | phrase (phraseId : UInt32)
  | wildcard (phraseId : UInt32) (w : Word)
  deriving DecidableEq, Repr

namespace Item

def tokens : Item → List Token
  | .main w => [.word w]
  | .rare w => [.word w]
  | .phrase phraseId => [.phrase phraseId]
  | .wildcard phraseId w => [.phrase phraseId, .wildcard w phraseId]

def WellFormed (e : EncodeTables) (d : DecodeTables) : Item → Prop
  | .main w => (e.mainEncode.lookup w).isSome
  | .rare w => e.mainEncode.lookup w = none ∧ (e.localEncode.lookup w).isSome
  | .phrase phraseId => ∃ p, d.phraseDecode[phraseId.toNat]? = some p ∧ p.hasWildcard = false
  | .wildcard phraseId w => (∃ p, d.phraseDecode[phraseId.toNat]? = some p ∧ p.hasWildcard = true) ∧
      ((e.mainEncode.lookup w).isSome ∨ (e.localEncode.lookup w).isSome)

/-- The words an item stands for. -/
def words (d : DecodeTables) : Item → List Word
  | .main w => [w]
  | .rare w => [w]
  | .phrase phraseId =>
    (d.phraseDecode[phraseId.toNat]?).elim [] fun p =>
      p.wordCodes.map fun code => d.mainDecode.getD code.toNat []
  | .wildcard phraseId w =>
    (d.phraseDecode[phraseId.toNat]?).elim [] fun p =>
      p.wordCodes.mapIdx fun i code =>
        if i = p.wildcardPos then w else d.mainDecode.getD code.toNat []

end Item

/-- Reading with one pass per item: each pass writes the words of its item and takes from the unread
bits exactly those that the writer appended for it. -/
def ReadsBack (e : EncodeTables) (d : DecodeTables) : BitWriter → BitReader → List Item → Prop
  | _, _, [] => True
  | bw, r, item :: items => ∃ bw' r' written, writeTokens e bw item.tokens = .ok bw' ∧
      bw'.bits = bw.bits ++ written ∧ readToken d r = .ok (item.words d, r') ∧
      r.rest = written ++ r'.rest ∧ ReadsBack e d bw' r' items

/-- The items are written behind a header of whole bytes, and read from there. -/
def Agreement (e : EncodeTables) (d : DecodeTables) (header : List UInt8) (items : List Item) :
    Prop :=
  ∃ bw, writeTokens e ⟨header, 0, 0⟩ (items.flatMap Item.tokens) = .ok bw ∧
    ReadsBack e d ⟨header, 0, 0⟩ ⟨bw.flush.buffer, header.length, 0⟩ items

def Item.IsMain : Item → Prop
  | .main _ => True
  | _ => False

/-- Main words only; or main words and, as the last item, a local word with a code in the lower
half of its width such that the bits of all items fill whole bytes. -/
def Unambiguous (e : EncodeTables) (items : List Item) : Prop :=
  (∀ item ∈ items, item.IsMain) ∨
    ∃ front w code, items = front ++ [.rare w] ∧ (∀ item ∈ front, item.IsMain) ∧
      e.localEncode.lookup w = some code ∧ code.toNat < 2 ^ (e.localWidth - 1) ∧
      (front.length * (1 + e.mainWidth) + (1 + e.localWidth)) % 8 = 0

/-! ### The bits of an item -/

def wordBits (e : EncodeTables) (w : Word) : List Bool :=
  match e.mainEncode.lookup w with
  | some code => false :: natBits e.mainWidth code.toNat
  | none =>
    match e.localEncode.lookup w with
    | some code => true :: natBits e.localWidth code.toNat
    | none => []

def itemBits (e : EncodeTables) : Item → List Bool
  | .main w => wordBits e w
  | .rare w => wordBits e w
  | .phrase phraseId => true :: false :: natBits e.phraseWidth phraseId.toNat
  | .wildcard phraseId w =>
    true :: false :: (natBits e.phraseWidth phraseId.toNat ++ (true :: true :: wordBits e w))

/-- A one-bit tag and a code behind it. -/
lemma writeCode_bits {bw : BitWriter} (h : bw.Ok) (tag code : UInt32) (width : ℕ) :
    ((bw.writeBits tag 1).writeBits code width).Ok ∧
      ((bw.writeBits tag 1).writeBits code width).bits =
        bw.bits ++ tag.toNat.testBit 0 :: natBits width code.toNat := by
  have htag := BitWriter.writeBits_ok h tag 1
  refine ⟨BitWriter.writeBits_ok htag _ _, ?_⟩
  rw [BitWriter.bits_writeBits htag, BitWriter.bits_writeBits h]
  simp [natBits]

lemma writeWord_bits {e : EncodeTables} (missing : Word → WriteError) {w : Word} {bw : BitWriter}
    (h : bw.Ok) (hw : (e.mainEncode.lookup w).isSome ∨ (e.localEncode.lookup w).isSome) :
    ∃ bw', writeWord e missing w bw = .ok bw' ∧ bw'.Ok ∧ bw'.bits = bw.bits ++ wordBits e w := by
  unfold writeWord wordBits
  cases hmain : e.mainEncode.lookup w with
  | some code => exact ⟨_, rfl, writeCode_bits h 0 code e.mainWidth⟩
  | none =>
    cases hlocal : e.localEncode.lookup w with
    | some code => exact ⟨_, rfl, writeCode_bits h 1 code e.localWidth⟩
    | none => simp [hmain, hlocal] at hw

lemma writeTag_bits {bw : BitWriter} (h : bw.Ok) (value : UInt32) :
    (bw.writeBits value 2).Ok ∧ (bw.writeBits value 2).bits =
      bw.bits ++ [value.toNat.testBit 1, value.toNat.testBit 0] :=
  ⟨BitWriter.writeBits_ok h _ _, BitWriter.bits_writeBits h _ _⟩

lemma writePhrase_bits {e : EncodeTables} {bw : BitWriter} (h : bw.Ok) (phraseId : UInt32) :
    ∃ bw', writeToken e bw (.phrase phraseId) = .ok bw' ∧ bw'.Ok ∧
      bw'.bits = bw.bits ++ itemBits e (.phrase phraseId) := by
  obtain ⟨hok, hbits⟩ := writeTag_bits h 2
  refine ⟨_, rfl, BitWriter.writeBits_ok hok _ _, ?_⟩
  rw [BitWriter.bits_writeBits hok, hbits]
  simp [itemBits]
  decide

lemma writeTokens_item {e : EncodeTables} {d : DecodeTables} {item : Item}
    (hw : item.WellFormed e d) {bw : BitWriter} (h : bw.Ok) :
    ∃ bw', writeTokens e bw item.tokens = .ok bw' ∧ bw'.Ok ∧
      bw'.bits = bw.bits ++ itemBits e item := by
  cases item with
  | main w =>
    obtain ⟨bw', heq, hok, hbits⟩ := writeWord_bits .word h (Or.inl hw)
    exact ⟨bw', by simpa [writeTokens, Item.tokens, writeToken] using heq, hok, hbits⟩
  | rare w =>
    obtain ⟨bw', heq, hok, hbits⟩ := writeWord_bits .word h (Or.inr hw.2)
    exact ⟨bw', by simpa [writeTokens, Item.tokens, writeToken] using heq, hok, hbits⟩
  | phrase phraseId =>
    obtain ⟨bw', heq, hok, hbits⟩ := writePhrase_bits (e := e) h phraseId
    exact ⟨bw', by simpa [writeTokens, Item.tokens] using heq, hok, hbits⟩
  | wildcard phraseId w =>
    obtain ⟨bw₁, heq₁, hok₁, hbits₁⟩ := writePhrase_bits (e := e) h phraseId
    obtain ⟨hok₂, hbits₂⟩ := writeTag_bits hok₁ 3
    obtain ⟨bw₃, heq₃, hok₃, hbits₃⟩ := writeWord_bits .wildcard hok₂ hw.2
    refine ⟨bw₃, ?_, hok₃, ?_⟩
    · have hlast : writeToken e bw₁ (.wildcard w phraseId) = .ok bw₃ := heq₃
      simp only [writeTokens, Item.tokens, List.foldlM_cons, List.foldlM_nil, heq₁, hlast, bind,
        Except.bind, pure, Except.pure]
    · rw [hbits₃, hbits₂, hbits₁]
      simp [itemBits]
      decide

lemma writeTokens_items {e : EncodeTables} {d : DecodeTables} {items : List Item}
    (hw : ∀ item ∈ items, item.WellFormed e d) {bw : BitWriter} (h : bw.Ok) :
    ∃ bw', writeTokens e bw (items.flatMap Item.tokens) = .ok bw' ∧ bw'.Ok ∧
      bw'.bits = bw.bits ++ items.flatMap (itemBits e) := by
  induction items generalizing bw with
  | nil => exact ⟨bw, rfl, h, by simp⟩
  | cons item items ih =>
    obtain ⟨bw₁, heq₁, hok₁, hbits₁⟩ := writeTokens_item (hw item List.mem_cons_self) h
    obtain ⟨bw₂, heq₂, hok₂, hbits₂⟩ := ih (fun i hi => hw i (List.mem_cons_of_mem _ hi)) hok₁
    refine ⟨bw₂, ?_, hok₂, by rw [hbits₂, hbits₁, List.flatMap_cons, List.append_assoc]⟩
    unfold writeTokens at heq₁ heq₂ ⊢
    rw [List.flatMap_cons, List.foldlM_append, heq₁]
    exact heq₂

/-! ### Reading the bits of an item -/

lemma field_natBits {n v : ℕ} (hv : v < 2 ^ n) (h32 : v < 2 ^ 32) (tail : List Bool) :
    field n (natBits n v ++ tail) = v := by
  rw [field, List.take_left' (natBits_length n v), bitsValue_natBits, Nat.mod_eq_of_lt hv,
    Nat.mod_eq_of_lt h32]

lemma drop_natBits (n v : ℕ) (tail : List Bool) : (natBits n v ++ tail).drop n = tail :=
  List.drop_left' (natBits_length n v)

lemma code_lt {words : List Word} {width : ℕ} {code : UInt32} {w : Word}
    (hfits : words.length ≤ 2 ^ width) (hw : words[code.toNat]? = some w) :
    code.toNat < 2 ^ width :=
  lt_of_lt_of_le (List.getElem?_eq_some_iff.mp hw).1 hfits

lemma parseSlot_length {d : DecodeTables} {p : PhraseInfo} {dict words : List Word} {width : ℕ}
    {bits tail : List Bool} (hparse : parseSlot d p dict width bits = some (words, tail)) :
    words.length = p.wordCodes.length := by
  unfold parseSlot at hparse
  simp only [Option.bind_eq_bind, Option.bind_eq_some_iff, Option.some.injEq, Prod.mk.injEq] at hparse
  obtain ⟨w, -, phrase, hphrase, rfl, -⟩ := hparse
  exact phraseWords_length hphrase

/-- An item whose first bit is 1 is read as a local word, if the next bit is 0, or as a phrase. -/
lemma parseItem_tagged {d : DecodeTables} {bits tail : List Bool} {words : List Word}
    (hone : field 1 bits ≠ 0) (hparse : parseItem d bits = some (words, tail)) :
    (field 1 (bits.drop 1) = 0 ∧ ∃ w, words = [w] ∧
        d.localDecode[field d.localWidth (bits.drop 2)]? = some w ∧
        tail = (bits.drop 2).drop d.localWidth) ∨
      (field 1 (bits.drop 1) ≠ 0 ∧ ∃ p ∈ d.phraseDecode, words.length = p.wordCodes.length) := by
  unfold parseItem at hparse
  rw [if_neg hone] at hparse
  by_cases hlocal : field 1 (bits.drop 1) = 0
  · rw [if_pos hlocal, Option.map_eq_some_iff] at hparse
    obtain ⟨w, hw, heq⟩ := hparse
    cases heq
    exact Or.inl ⟨hlocal, w, rfl, hw, rfl⟩
  · rw [if_neg hlocal] at hparse
    refine Or.inr ⟨hlocal, ?_⟩
    cases hp : d.phraseDecode[field d.phraseWidth (bits.drop 2)]? with
    | none => simp [hp] at hparse
    | some p =>
      refine ⟨p, List.mem_of_getElem? hp, ?_⟩
      simp only [hp] at hparse
      split at hparse
      · split at hparse
        · split at hparse <;> exact parseSlot_length hparse
        · simp at hparse
      · obtain ⟨phrase, hphrase, heq⟩ := Option.map_eq_some_iff.mp hparse
        cases heq
        exact phraseWords_length hphrase

/-- The tag 10 of a phrase is read as the tag of a local word. -/
lemma parseItem_phrase {bits tail : List Bool} {words : List Word} (hlen : 2 ≤ words.length) :
    parseItem d (true :: false :: bits) ≠ some (words, tail) := by
  intro hparse
  rcases parseItem_tagged (by simp [field_one]) hparse with ⟨-, w, rfl, -⟩ | ⟨hbit, -⟩
  · simp at hlen
  · simp [field_one] at hbit

lemma headD_natBits {width c : ℕ} (hc : c < 2 ^ width) :
    (natBits width c).headD false = false ↔ c < 2 ^ (width - 1) := by
  cases width with
  | zero => simpa [natBits] using hc
  | succ n =>
    have hdiv : (c.testBit n).toNat = c / 2 ^ n % 2 := Nat.toNat_testBit c n
    have htwo : c / 2 ^ n < 2 := Nat.div_lt_of_lt_mul (by rwa [← pow_succ])
    rw [Nat.add_sub_cancel, ← Nat.div_eq_zero_iff_lt (Nat.two_pow_pos n)]
    generalize c / 2 ^ n = q at hdiv htwo ⊢
    cases hbit : c.testBit n with
    | false =>
      rw [hbit, Bool.toNat_false] at hdiv
      simp only [natBits, List.headD_cons, hbit, true_iff]
      omega
    | true =>
      rw [hbit, Bool.toNat_true] at hdiv
      simp only [natBits, List.headD_cons, hbit, Bool.true_eq_false, false_iff]
      omega

lemma itemBits_ne_nil {e : EncodeTables} {d : DecodeTables} {item : Item}
    (hw : item.WellFormed e d) : itemBits e item ≠ [] := by
  cases item with
  | main w =>
    obtain ⟨code, hcode⟩ := Option.isSome_iff_exists.mp hw
    simp [itemBits, wordBits, hcode]
  | rare w =>
    obtain ⟨code, hcode⟩ := Option.isSome_iff_exists.mp hw.2
    simp [itemBits, wordBits, hw.1, hcode]
  | phrase phraseId => simp [itemBits]
  | wildcard phraseId w => simp [itemBits]

section Reading

variable {e : EncodeTables} {d : DecodeTables} (h : TablesAgree e d)
include h

lemma parseItem_main {w : Word} (hw : (e.mainEncode.lookup w).isSome) (tail : List Bool) :
    parseItem d (itemBits e (.main w) ++ tail) = some ([w], tail) := by
  obtain ⟨code, hcode⟩ := Option.isSome_iff_exists.mp hw
  have hdecode := h.main w code hcode
  simp only [itemBits, wordBits, hcode, h.mainWidth, List.cons_append, parseItem, field_one,
    List.headD_cons, Bool.toNat_false, if_true, List.drop_one, List.tail_cons,
    field_natBits (code_lt h.mainFits hdecode) code.toNat_lt, hdecode, drop_natBits,
    Option.map_some]

lemma words_length_phrase {phraseId : UInt32} {p : PhraseInfo}
    (hp : d.phraseDecode[phraseId.toNat]? = some p) (w : Word) :
    2 ≤ (Item.words d (.phrase phraseId)).length ∧
      2 ≤ (Item.words d (.wildcard phraseId w)).length := by
  have hlen := h.phraseLength p (List.mem_of_getElem? hp)
  simp [Item.words, hp, hlen]

/-- A local word is read back only at the very end of the bits, where the missing bit of its tag
is made up for by the leading zero of its code. -/
lemma parseItem_rare {w : Word} {code : UInt32} (hmain : e.mainEncode.lookup w = none)
    (hcode : e.localEncode.lookup w = some code) (tail : List Bool) :
    parseItem d (itemBits e (.rare w) ++ tail) = some ([w], tail) ↔
      tail = [] ∧ code.toNat < 2 ^ (e.localWidth - 1) := by
  have hdecode := h.rare w code hcode
  have hlt := code_lt h.localFits hdecode
  have hbits : itemBits e (.rare w) = true :: natBits d.localWidth code.toNat := by
    simp only [itemBits, wordBits, hmain, hcode, h.localWidth]
  rw [hbits, h.localWidth, ← headD_natBits hlt]
  constructor
  · intro hparse
    rcases parseItem_tagged (by simp [field_one]) hparse with ⟨hbit, -, -, -, htail⟩ | ⟨-, p, hp, hlen⟩
    · have hnil : tail = [] := by
        have hlen := congrArg List.length htail
        simp only [List.cons_append, List.drop_succ_cons, List.length_drop, List.length_append,
          natBits_length] at hlen
        exact List.eq_nil_of_length_eq_zero (by omega)
      subst hnil
      refine ⟨rfl, ?_⟩
      rw [List.append_nil, List.drop_one, List.tail_cons, field_one] at hbit
      simpa using hbit
    · have hlong := h.phraseLength p hp
      simp only [List.length_singleton] at hlen
      omega
  · rintro ⟨rfl, hzero⟩
    have hfield : field d.localWidth (((true :: natBits d.localWidth code.toNat).drop 2)) =
        code.toNat := by
      cases hwidth : d.localWidth with
      | zero =>
        rw [hwidth] at hlt
        simp only [field, List.take_zero, bitsValue_nil]
        omega
      | succ n =>
        rw [hwidth] at hlt hzero
        have hsmall := (headD_natBits hlt).mp hzero
        rw [Nat.add_sub_cancel] at hsmall
        simp only [natBits, List.drop_succ_cons, List.drop_zero, field]
        rw [List.take_of_length_le (by simp), bitsValue_natBits, Nat.mod_eq_of_lt hsmall,
          Nat.mod_eq_of_lt code.toNat_lt]
    have hrest : ((true :: natBits d.localWidth code.toNat).drop 2).drop d.localWidth = [] := by
      apply List.drop_eq_nil_of_le
      simp
    rw [List.append_nil, parseItem, if_neg (by simp [field_one]), if_pos, hfield, hdecode, hrest]
    · rfl
    · rw [List.drop_one, List.tail_cons, field_one, hzero]
      rfl

end Reading

/-! ### The whole stream -/

def ParsesBack (e : EncodeTables) (d : DecodeTables) : List Bool → List Item → Prop
  | _, [] => True
  | bits, item :: items => ∃ tail, bits = itemBits e item ++ tail ∧
      parseItem d bits = some (item.words d, tail) ∧ ParsesBack e d tail items

lemma readsBack_iff {e : EncodeTables} {d : DecodeTables} {items : List Item}
    (hw : ∀ item ∈ items, item.WellFormed e d) {bw : BitWriter} (hb : bw.Ok) {r : BitReader}
    (hr : r.Ok) : ReadsBack e d bw r items ↔ ParsesBack e d r.rest items := by
  induction items generalizing bw r with
  | nil => simp [ReadsBack, ParsesBack]
  | cons item items ih =>
    obtain ⟨bw₁, heq₁, hok₁, hbits₁⟩ := writeTokens_item (hw item List.mem_cons_self) hb
    have hw' : ∀ i ∈ items, i.WellFormed e d := fun i hi => hw i (List.mem_cons_of_mem _ hi)
    constructor
    · rintro ⟨bw', r', written, hwrite, hbits, hread, hrest, hback⟩
      obtain rfl : bw₁ = bw' := by simpa [heq₁] using hwrite
      obtain rfl : itemBits e item = written := List.append_cancel_left (hbits₁.symm.trans hbits)
      have hr' : r'.Ok := by
        have hsim := simulates_readToken d hr
        rw [hread] at hsim
        cases hparse : parseItem d r.rest with
        | none => simp [hparse, Simulates] at hsim
        | some found =>
          rw [hparse] at hsim
          exact hsim.2.1
      exact ⟨r'.rest, hrest, (readToken_ok_iff hr).mp ⟨r', hread, hr', rfl⟩, (ih hw' hok₁ hr').mp hback⟩
    · rintro ⟨tail, hrest, hparse, hback⟩
      obtain ⟨r', hread, hr', rfl⟩ := (readToken_ok_iff hr).mpr hparse
      exact ⟨bw₁, r', itemBits e item, heq₁, hbits₁, hread, hrest, (ih hw' hok₁ hr').mpr hback⟩

/-- `Unambiguous` with the number `pad` of bits that follow the last item. -/
def UnambiguousPadded (e : EncodeTables) (pad : ℕ) (items : List Item) : Prop :=
  (∀ item ∈ items, item.IsMain) ∨
    ∃ front w code, items = front ++ [.rare w] ∧ (∀ item ∈ front, item.IsMain) ∧
      e.localEncode.lookup w = some code ∧ code.toNat < 2 ^ (e.localWidth - 1) ∧ pad = 0

lemma unambiguousPadded_cons_main {e : EncodeTables} {pad : ℕ} {w : Word} {items : List Item} :
    UnambiguousPadded e pad (.main w :: items) ↔ UnambiguousPadded e pad items := by
  unfold UnambiguousPadded
  constructor
  · rintro (hall | ⟨front, w', code, heq, hfront, hrest⟩)
    · exact Or.inl fun item hi => hall item (List.mem_cons_of_mem _ hi)
    · cases front with
      | nil => simp at heq
      | cons item front =>
        simp only [List.cons_append, List.cons.injEq] at heq
        exact Or.inr ⟨front, w', code, heq.2, fun i hi => hfront i (List.mem_cons_of_mem _ hi), hrest⟩
  · rintro (hall | ⟨front, w', code, rfl, hfront, hrest⟩)
    · exact Or.inl (List.forall_mem_cons.mpr ⟨trivial, hall⟩)
    · exact Or.inr ⟨.main w :: front, w', code, rfl, List.forall_mem_cons.mpr ⟨trivial, hfront⟩, hrest⟩

lemma unambiguousPadded_cons_other {e : EncodeTables} {pad : ℕ} {item : Item} {items : List Item}
    (hother : ¬ item.IsMain) : UnambiguousPadded e pad (item :: items) ↔
      ∃ w code, item = .rare w ∧ items = [] ∧ e.localEncode.lookup w = some code ∧
        code.toNat < 2 ^ (e.localWidth - 1) ∧ pad = 0 := by
  unfold UnambiguousPadded
  constructor
  · rintro (hall | ⟨front, w, code, heq, hfront, hrest⟩)
    · exact absurd (hall item List.mem_cons_self) hother
    · cases front with
      | nil =>
        simp only [List.nil_append, List.cons.injEq] at heq
        exact ⟨w, code, heq.1, heq.2, hrest⟩
      | cons i front =>
        simp only [List.cons_append, List.cons.injEq] at heq
        rw [heq.1] at hother
        exact absurd (hfront i List.mem_cons_self) hother
  · rintro ⟨w, code, rfl, rfl, hrest⟩
    exact Or.inr ⟨[], w, code, rfl, by simp, hrest⟩

theorem parsesBack_iff {e : EncodeTables} {d : DecodeTables} (h : TablesAgree e d)
    {items : List Item} (hw : ∀ item ∈ items, item.WellFormed e d) (pad : ℕ) :
    ParsesBack e d (items.flatMap (itemBits e) ++ List.replicate pad false) items ↔
      UnambiguousPadded e pad items := by
  induction items with
  | nil => simp [ParsesBack, UnambiguousPadded]
  | cons item items ih =>
    have hitem := hw item List.mem_cons_self
    have hw' : ∀ i ∈ items, i.WellFormed e d := fun i hi => hw i (List.mem_cons_of_mem _ hi)
    set tail := items.flatMap (itemBits e) ++ List.replicate pad false with htail
    have hbits : (item :: items).flatMap (itemBits e) ++ List.replicate pad false =
        itemBits e item ++ tail := by rw [List.flatMap_cons, List.append_assoc]
    have hstep : ParsesBack e d (itemBits e item ++ tail) (item :: items) ↔
        parseItem d (itemBits e item ++ tail) = some (item.words d, tail) ∧
          ParsesBack e d tail items := by
      constructor
      · rintro ⟨tail', heq, hparse, hback⟩
        obtain rfl : tail = tail' := List.append_cancel_left heq
        exact ⟨hparse, hback⟩
      · rintro ⟨hparse, hback⟩
        exact ⟨tail, rfl, hparse, hback⟩
    rw [hbits, hstep, ih hw']
    cases item with
    | main w =>
      rw [unambiguousPadded_cons_main]
      simp [Item.words, parseItem_main h hitem]
    | rare w =>
      obtain ⟨code, hcode⟩ := Option.isSome_iff_exists.mp hitem.2
      rw [unambiguousPadded_cons_other (by simp [Item.IsMain]), Item.words,
        parseItem_rare h hitem.1 hcode]
      constructor
      · rintro ⟨⟨hnil, hlt⟩, -⟩
        rw [htail, List.append_eq_nil_iff, List.replicate_eq_nil_iff] at hnil
        refine ⟨w, code, rfl, ?_, hcode, hlt, hnil.2⟩
        cases items with
        | nil => rfl
        | cons i items =>
          have hfirst := List.flatMap_eq_nil_iff.mp hnil.1 i List.mem_cons_self
          exact absurd hfirst (itemBits_ne_nil (hw' i List.mem_cons_self))
      · rintro ⟨w', code', heq, rfl, hcode', hlt, rfl⟩
        cases heq
        obtain rfl : code = code' := by simpa [hcode] using hcode'
        exact ⟨⟨by simp [htail], hlt⟩, by simp [UnambiguousPadded]⟩
    | phrase phraseId =>
      obtain ⟨p, hp, -⟩ := hitem
      rw [unambiguousPadded_cons_other (by simp [Item.IsMain])]
      simp [itemBits, parseItem_phrase (words_length_phrase h hp []).1]
    | wildcard phraseId w =>
      obtain ⟨⟨p, hp, -⟩, -⟩ := hitem
      rw [unambiguousPadded_cons_other (by simp [Item.IsMain])]
      simp [itemBits, parseItem_phrase (words_length_phrase h hp w).2]

lemma itemBits_length_main {e : EncodeTables} {d : DecodeTables} {item : Item}
    (hw : item.WellFormed e d) (hmain : item.IsMain) :
    (itemBits e item).length = 1 + e.mainWidth := by
  cases item with
  | main w =>
    obtain ⟨code, hcode⟩ := Option.isSome_iff_exists.mp hw
    simp [itemBits, wordBits, hcode, Nat.add_comm]
  | rare w => exact hmain.elim
  | phrase phraseId => exact hmain.elim
  | wildcard phraseId w => exact hmain.elim

lemma flatMap_itemBits_length {e : EncodeTables} {d : DecodeTables} {front : List Item}
    (hw : ∀ item ∈ front, item.WellFormed e d) (hmain : ∀ item ∈ front, item.IsMain) :
    (front.flatMap (itemBits e)).length = front.length * (1 + e.mainWidth) := by
  induction front with
  | nil => simp
  | cons item front ih =>
    rw [List.flatMap_cons, List.length_append, List.length_cons,
      itemBits_length_main (hw item List.mem_cons_self) (hmain item List.mem_cons_self),
      ih (fun i hi => hw i (List.mem_cons_of_mem _ hi))
        (fun i hi => hmain i (List.mem_cons_of_mem _ hi))]
    ring

/-- The number of zero bits that `flush` adds behind the items. -/
def padding (e : EncodeTables) (items : List Item) : ℕ :=
  (8 - (items.flatMap (itemBits e)).length % 8) % 8

/-- The bytes behind the header are the bits of the items and the padding. -/
lemma bytesBits_written {e : EncodeTables} {d : DecodeTables} (header : List UInt8)
    {items : List Item} (hw : ∀ item ∈ items, item.WellFormed e d) :
    ∃ bw, writeTokens e ⟨header, 0, 0⟩ (items.flatMap Item.tokens) = .ok bw ∧
      bytesBits bw.flush.buffer = bytesBits header ++
        (items.flatMap (itemBits e) ++ List.replicate (padding e items) false) := by
  have hok₀ : BitWriter.Ok ⟨header, 0, 0⟩ := ⟨by simp, by simp⟩
  obtain ⟨bw, heq, hok, hbits⟩ := writeTokens_items hw hok₀
  have hstart : BitWriter.bits ⟨header, 0, 0⟩ = bytesBits header := by simp [BitWriter.bits, natBits]
  rw [hstart] at hbits
  have hlen : bw.bits.length % 8 = (items.flatMap (itemBits e)).length % 8 := by
    rw [hbits, List.length_append, bytesBits_length, Nat.mul_add_mod]
  refine ⟨bw, heq, ?_⟩
  rw [BitWriter.bytesBits_flush hok, hlen, hbits, List.append_assoc]
  rfl

lemma agreement_iff_padded {e : EncodeTables} {d : DecodeTables} (h : TablesAgree e d)
    (header : List UInt8) {items : List Item} (hw : ∀ item ∈ items, item.WellFormed e d) :
    Agreement e d header items ↔ UnambiguousPadded e (padding e items) items := by
  have hok₀ : BitWriter.Ok ⟨header, 0, 0⟩ := ⟨by simp, by simp⟩
  obtain ⟨bw, heq, hbits⟩ := bytesBits_written header hw
  have hrest : BitReader.rest ⟨bw.flush.buffer, header.length, 0⟩ =
      items.flatMap (itemBits e) ++ List.replicate (padding e items) false := by
    rw [BitReader.rest, List.drop_zero, bytesBits_drop, hbits,
      List.drop_left' (bytesBits_length header)]
  rw [← parsesBack_iff h hw, ← hrest, ← readsBack_iff hw hok₀ (BitReader.ok_start _ _)]
  constructor
  · rintro ⟨bw', heq', hback⟩
    obtain rfl : bw = bw' := by simpa [heq] using heq'
    exact hback
  · intro hback
    exact ⟨bw, heq, hback⟩

theorem agreement_iff {e : EncodeTables} {d : DecodeTables} (h : TablesAgree e d)
    (header : List UInt8) {items : List Item} (hw : ∀ item ∈ items, item.WellFormed e d) :
    Agreement e d header items ↔ Unambiguous e items := by
  rw [agreement_iff_padded h header hw]
  unfold UnambiguousPadded Unambiguous
  refine or_congr Iff.rfl ?_
  refine exists_congr fun front => exists_congr fun w => exists_congr fun code => ?_
  refine and_congr_right fun hitems => and_congr_right fun hfront => ?_
  refine and_congr_right fun hcode => and_congr_right fun _ => ?_
  subst hitems
  have hwell := hw (.rare w) (by simp)
  have hrare : (itemBits e (.rare w)).length = 1 + e.localWidth := by
    simp [itemBits, wordBits, hwell.1, hcode, Nat.add_comm]
  rw [padding, List.flatMap_append, List.length_append, List.flatMap_singleton, hrare,
    flatMap_itemBits_length (fun i hi => hw i (by simp [hi])) hfront]
  omega

def wordA : Word := [0x61]

def wordB : Word := [0x62]

def sampleEncode : EncodeTables where
  mainEncode := (AList.insert wordB 1 (AList.insert wordA 0 ∅))
  mainWidth := 1
  localEncode := ∅
  localWidth := 0
  phraseWidth := 0

def sampleDecode : DecodeTables where
  mainDecode := [wordA, wordB]
  mainWidth := 1
  localDecode := []
  localWidth := 0
  phraseDecode := [⟨[0, 1], 1, false, 0⟩]
  phraseWidth := 0

lemma sample_lookup {w : Word} {code : UInt32} (hw : sampleEncode.mainEncode.lookup w = some code) :
    sampleDecode.mainDecode[code.toNat]? = some w := by
  unfold sampleEncode at hw
  by_cases hB : w = wordB
  · subst hB
    rw [AList.lookup_insert] at hw
    cases hw
    rfl
  · rw [AList.lookup_insert_ne hB] at hw
    by_cases hA : w = wordA
    · subst hA
      rw [AList.lookup_insert] at hw
      cases hw
      rfl
    · rw [AList.lookup_insert_ne hA, AList.lookup_empty] at hw
      cases hw

lemma sample_tablesAgree : TablesAgree sampleEncode sampleDecode where
  main _ _ := sample_lookup
  rare w code hw := by
    rw [sampleEncode, AList.lookup_empty] at hw
    cases hw
  mainWidth := rfl
  localWidth := rfl
  phraseWidth := rfl
  mainFits := by decide
  localFits := by decide
  phraseFits := by decide
  phraseLength := by decide

theorem agreement_iff_mainWords : Agreement sampleEncode sampleDecode [0, 0]
    [.main wordB, .main wordA, .main wordA, .main wordB, .main wordB] := by
  refine (agreement_iff sample_tablesAgree [0, 0] ?_).mpr (Or.inl ?_)
  · have hA : (sampleEncode.mainEncode.lookup wordA).isSome := by decide
    have hB : (sampleEncode.mainEncode.lookup wordB).isSome := by decide
    simp [Item.WellFormed, hA, hB]
  · simp [Item.IsMain]

theorem not_agreement_phrase : TablesAgree sampleEncode sampleDecode ∧
    Item.WellFormed sampleEncode sampleDecode (.phrase 0) ∧
    ¬ Agreement sampleEncode sampleDecode [0, 0] [.phrase 0] := by
  have hwell : Item.WellFormed sampleEncode sampleDecode (.phrase 0) :=
    ⟨⟨[0, 1], 1, false, 0⟩, rfl, rfl⟩
  refine ⟨sample_tablesAgree, hwell, ?_⟩
  rw [agreement_iff_padded sample_tablesAgree [0, 0] (by simpa using hwell),
    unambiguousPadded_cons_other (by simp [Item.IsMain])]
  simp

end HashCompress.CodecAgreement
