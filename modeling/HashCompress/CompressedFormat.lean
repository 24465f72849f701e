import HashCompress.LocalHeader
import HashCompress.CodecAgreement
import HashCompress.CodeWidths

/-!
# The compressed file

Every byte of the file that a successful `compress` writes, for every object it is called on.
-/
namespace HashCompress.Compressor

open BitList BitIO WordText TallyMap KeyTrie CodeTables TokenCodec CodecAgreement TokenLoop
open PhraseMining PhraseSegment Tokenizer

/-- The bits of a token: the type bits of the writer, then the code. -/
def tokenBits (e : EncodeTables) : Token → List Bool
  | .word w => wordBits e w
  | .phrase phraseId => true :: false :: natBits e.phraseWidth phraseId.toNat
  | .wildcard w _ => true :: true :: wordBits e w

lemma writeWord_wordBits {e : EncodeTables} {missing : Word → WriteError} {w : Word} {bw bw' : BitWriter}
    (h : bw.Ok) (hwrite : writeWord e missing w bw = .ok bw') :
    bw'.Ok ∧ bw'.bits = bw.bits ++ wordBits e w := by
  have hknown : (e.mainEncode.lookup w).isSome ∨ (e.localEncode.lookup w).isSome := by
    unfold writeWord at hwrite
    cases hmain : e.mainEncode.lookup w with
    | some code => exact Or.inl rfl
    | none =>
      cases hlocal : e.localEncode.lookup w with
      | some code => exact Or.inr rfl
      | none =>
        rw [hmain, hlocal] at hwrite
        cases hwrite
  obtain ⟨bw'', heq, hspec⟩ := writeWord_bits missing h hknown
  rw [heq] at hwrite
  cases hwrite
  exact hspec

lemma writeToken_tokenBits {e : EncodeTables} {token : Token} {bw bw' : BitWriter} (h : bw.Ok)
    (hwrite : writeToken e bw token = .ok bw') :
    bw'.Ok ∧ bw'.bits = bw.bits ++ tokenBits e token := by
  cases token with
  | word w => exact writeWord_wordBits h hwrite
  | phrase phraseId =>
    obtain ⟨bw'', heq, hspec⟩ := writePhrase_bits h phraseId
    rw [heq] at hwrite
    cases hwrite
    exact hspec
  | wildcard w phraseId =>
    obtain ⟨htag, htagBits⟩ := writeTag_bits h 3
    obtain ⟨hok, hbits⟩ := writeWord_wordBits htag hwrite
    refine ⟨hok, ?_⟩
    rw [hbits, htagBits, tokenBits, List.append_assoc]
    rfl

lemma writeTokens_tokenBits {e : EncodeTables} {tokens : List Token} {bw bw' : BitWriter} (h : bw.Ok)
    (hwrite : writeTokens e bw tokens = .ok bw') :
    bw'.Ok ∧ bw'.bits = bw.bits ++ tokens.flatMap (tokenBits e) := by
  induction tokens generalizing bw with
  | nil =>
    cases hwrite
    exact ⟨h, by simp⟩
  | cons token tokens ih =>
    cases hfirst : writeToken e bw token with
    | error failure =>
      rw [writeTokens, List.foldlM_cons, hfirst] at hwrite
      cases hwrite
    | ok next =>
      rw [writeTokens, List.foldlM_cons, hfirst] at hwrite
      obtain ⟨hnext, hnextBits⟩ := writeToken_tokenBits h hfirst
      obtain ⟨hok, hbits⟩ := ih hnext hwrite
      exact ⟨hok, by rw [hbits, hnextBits, List.flatMap_cons, List.append_assoc]⟩

/-- A successful run on any object: the steps after learning all came to their end. -/
lemma compress_writes {ch : Choices} {files : CompressFiles} {c : TwoTierTextCompressor}
    (h : (compress ch files c).status = .success) :
    ∃ text bw, files.input = some text ∧
      writeTokens (encodeTables (compress ch files c).object)
        (writeLocalDictionary (compress ch files c).object.localDecode {})
        (processWithPhrases (compress ch files c).object.phraseTrieRoot (tokenizeRaw text)) =
          .ok bw ∧
      (compress ch files c).compressed = some bw.flush.buffer ∧
      (compress ch files c).object.phraseMaxBitLength = c.phraseMaxBitLength := by
  obtain ⟨text, hinput, -, hfinish⟩ := compress_eq_finish h
  rw [hfinish] at h ⊢
  obtain ⟨hstats, hlocal⟩ := finish_success h
  rw [finish_eq_writeFiles hstats hlocal] at h ⊢
  obtain ⟨bw, hwrite, hrun⟩ := writeFiles_success h
  rw [hrun]
  exact ⟨text, bw, hinput, hwrite, rfl, rfl⟩

/-- The size of a token in bits. -/
def tokenSize (e : EncodeTables) : Token → ℕ
  | .word w => 1 + if w ∈ e.mainEncode then e.mainWidth else e.localWidth
  | .phrase _ => 2 + e.phraseWidth
  | .wildcard w _ => 3 + if w ∈ e.mainEncode then e.mainWidth else e.localWidth

lemma writeWord_size {e : EncodeTables} {missing : Word → WriteError} {w : Word}
    {bw bw' : BitWriter} (hwrite : writeWord e missing w bw = .ok bw') :
    (wordBits e w).length = 1 + if w ∈ e.mainEncode then e.mainWidth else e.localWidth := by
  unfold writeWord at hwrite
  unfold wordBits
  cases hmain : e.mainEncode.lookup w with
  | some code =>
    have hmem : w ∈ e.mainEncode := AList.lookup_isSome.mp (by rw [hmain]; rfl)
    rw [if_pos hmem]
    simp [Nat.add_comm]
  | none =>
    rw [if_neg (AList.lookup_eq_none.mp hmain)]
    cases hlocal : e.localEncode.lookup w with
    | some code => simp [Nat.add_comm]
    | none =>
      rw [hmain, hlocal] at hwrite
      cases hwrite

lemma writeToken_size {e : EncodeTables} {token : Token} {bw bw' : BitWriter}
    (hwrite : writeToken e bw token = .ok bw') : (tokenBits e token).length = tokenSize e token := by
  cases token with
  | word w => exact writeWord_size hwrite
  | phrase phraseId =>
    simp only [tokenBits, tokenSize, List.length_cons, natBits_length]
    omega
  | wildcard w phraseId =>
    have hsize := writeWord_size hwrite
    simp only [tokenBits, tokenSize, List.length_cons, hsize]
    omega

lemma writeTokens_size {e : EncodeTables} {tokens : List Token} {bw bw' : BitWriter}
    (hwrite : writeTokens e bw tokens = .ok bw') :
    (tokens.flatMap (tokenBits e)).length = (tokens.map (tokenSize e)).sum := by
  induction tokens generalizing bw with
  | nil => rfl
  | cons token tokens ih =>
    cases hfirst : writeToken e bw token with
    | error failure =>
      rw [writeTokens, List.foldlM_cons, hfirst] at hwrite
      cases hwrite
    | ok next =>
      rw [writeTokens, List.foldlM_cons, hfirst] at hwrite
      rw [List.flatMap_cons, List.length_append, writeToken_size hfirst, ih hwrite, List.map_cons,
        List.sum_cons]

lemma headerBits_length (words : List Word) :
    (headerBits words).length = 16 + (words.map fun w => 8 + 8 * w.length).sum := by
  simp only [headerBits, localWordBits, List.length_append, natBits_length, List.length_flatMap,
    bytesBits_length]

/-- The size of the compressed data in bits. -/
def compressedSize (c : TwoTierTextCompressor) (tokens : List Token) : ℕ :=
  16 + (c.localDecode.map fun w => 8 + 8 * w.length).sum +
    (tokens.map (tokenSize (encodeTables c))).sum

lemma compress_bits {ch : Choices} {files : CompressFiles} {c : TwoTierTextCompressor}
    (h : (compress ch files c).status = .success) :
    ∃ text bytes, files.input = some text ∧ (compress ch files c).compressed = some bytes ∧
      (compress ch files c).object.phraseMaxBitLength = c.phraseMaxBitLength ∧
      let object := (compress ch files c).object
      let tokens := processWithPhrases object.phraseTrieRoot (tokenizeRaw text)
      let bits := headerBits object.localDecode ++ tokens.flatMap (tokenBits (encodeTables object))
      bits.length = compressedSize object tokens ∧
        bytesBits bytes = bits ++ List.replicate ((8 - bits.length % 8) % 8) false := by
  obtain ⟨text, bw, hinput, hwrite, hcompressed, hwidth⟩ := compress_writes h
  refine ⟨text, bw.flush.buffer, hinput, hcompressed, hwidth, ?_⟩
  obtain ⟨hheader, hheaderBits⟩ := writeLocalDictionary_bits BitWriter.ok_empty
    (compress ch files c).object.localDecode
  obtain ⟨hok, hbits⟩ := writeTokens_tokenBits hheader hwrite
  rw [hheaderBits, BitWriter.bits_empty, List.nil_append] at hbits
  intro object tokens bits
  refine ⟨?_, by rw [BitWriter.bytesBits_flush hok, hbits]⟩
  rw [List.length_append, headerBits_length, writeTokens_size hwrite, compressedSize]

/-- Every successful run, on a fresh or on a used object: the file is the local dictionary, the
tokens one after the other and zeros up to the next byte, and nothing else. A phrase takes two bits
and its id; the width of the ids is the one that the object had before the call. -/
theorem compress_format (ch : Choices) (files : CompressFiles) (c : TwoTierTextCompressor)
    (h : (compress ch files c).status = .success) :
    ∃ text bytes, files.input = some text ∧ (compress ch files c).compressed = some bytes ∧
      let object := (compress ch files c).object
      let tokens := processWithPhrases object.phraseTrieRoot (tokenizeRaw text)
      object.phraseMaxBitLength = c.phraseMaxBitLength ∧
        bytes.length = (compressedSize object tokens + 7) / 8 ∧
        bytesBits bytes = headerBits object.localDecode ++
          tokens.flatMap (tokenBits (encodeTables object)) ++
            List.replicate (8 * bytes.length - compressedSize object tokens) false := by
  obtain ⟨text, bytes, hinput, hcompressed, hwidth, hsize, hbits⟩ := compress_bits h
  refine ⟨text, bytes, hinput, hcompressed, hwidth, ?_⟩
  have hlen := congrArg List.length hbits
  rw [bytesBits_length, List.length_append, List.length_replicate, hsize] at hlen
  refine ⟨by omega, hbits.trans ?_⟩
  rw [hsize]
  congr 2
  omega

/-- An object that has read three phrases or more before: the one phrase of the text takes five
bits. -/
theorem compress_format_threeWords : ∃ bytes,
    (compress stableChoices threeWordFiles { phraseMaxBitLength := 3 }).compressed = some bytes ∧
      bytes.length = 3 := by
  obtain ⟨text, bytes, hinput, hbytes, -, hlen, -⟩ :=
    compress_format stableChoices threeWordFiles { phraseMaxBitLength := 3 } (by decide +kernel)
  obtain rfl : [0x61, 32, 0x62, 32, 0x63] = text := Option.some.inj hinput
  refine ⟨bytes, hbytes, hlen.trans ?_⟩
  decide +kernel

end HashCompress.Compressor
