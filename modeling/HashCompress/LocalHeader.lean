import HashCompress.Compressor

/-!
# The local dictionary in front of the tokens

The 16-bit count and the 8-bit lengths that `compress` writes, and what `decompress` reads back.
-/
namespace HashCompress.Compressor

open BitList BitIO CodeTables TokenLoop

/-- A local word behind its length. -/
def localWordBits (w : Word) : List Bool := natBits 8 w.length ++ bytesBits w

def headerBits (words : List Word) : List Bool :=
  natBits 16 words.length ++ words.flatMap localWordBits

lemma natBits_ofNat {n : ℕ} (hn : n ≤ 32) (v : ℕ) :
    natBits n (UInt32.ofNat v).toNat = natBits n v := by
  apply natBits_congr
  rw [UInt32.toNat_ofNat', Nat.mod_mod_of_dvd _ (pow_dvd_pow 2 hn)]

lemma writeChars_bits {bw : BitWriter} (h : bw.Ok) (word : Word) :
    (writeChars bw word).Ok ∧ (writeChars bw word).bits = bw.bits ++ bytesBits word := by
  induction word generalizing bw with
  | nil => exact ⟨h, (List.append_nil _).symm⟩
  | cons c word ih =>
    obtain ⟨hok, hbits⟩ := ih (BitWriter.writeBits_ok h (UInt32.ofNat c.toNat) 8)
    refine ⟨hok, hbits.trans ?_⟩
    rw [BitWriter.bits_writeBits h, natBits_ofNat (by omega), bytesBits_cons, List.append_assoc]

lemma writeLocalDictionary_bits {bw : BitWriter} (h : bw.Ok) (words : List Word) :
    (writeLocalDictionary words bw).Ok ∧
      (writeLocalDictionary words bw).bits = bw.bits ++ headerBits words := by
  have hwords : ∀ (words : List Word) (bw : BitWriter), bw.Ok →
      (words.foldl (fun bw word => writeChars (bw.writeBits (UInt32.ofNat word.length) 8) word)
        bw).Ok ∧
      (words.foldl (fun bw word => writeChars (bw.writeBits (UInt32.ofNat word.length) 8) word)
        bw).bits = bw.bits ++ words.flatMap localWordBits := by
    intro words
    induction words with
    | nil => exact fun bw hbw => ⟨hbw, (List.append_nil _).symm⟩
    | cons w words ih =>
      intro bw hbw
      obtain ⟨hchars, hbits⟩ :=
        writeChars_bits (BitWriter.writeBits_ok hbw (UInt32.ofNat w.length) 8) w
      obtain ⟨hok, hrest⟩ := ih _ hchars
      refine ⟨hok, hrest.trans ?_⟩
      rw [hbits, BitWriter.bits_writeBits hbw, natBits_ofNat (by omega), List.flatMap_cons,
        localWordBits]
      simp only [List.append_assoc]
  obtain ⟨hok, hbits⟩ :=
    hwords words _ (BitWriter.writeBits_ok h (UInt32.ofNat words.length) 16)
  refine ⟨hok, hbits.trans ?_⟩
  rw [BitWriter.bits_writeBits h, natBits_ofNat (by omega), headerBits, List.append_assoc]

/-! ### Reading -/

lemma readChars_length (n : ℕ) (r : BitReader) : (readChars n r).1.length = n := by
  induction n generalizing r with
  | zero => rfl
  | succ n ih => simp only [readChars, List.length_cons, ih]

lemma readChars_bytesBits {r : BitReader} (h : r.Ok) {word : Word} {tail : List Bool}
    (hrest : r.rest = bytesBits word ++ tail) :
    (readChars word.length r).1 = word ∧ (readChars word.length r).2.Ok ∧
      (readChars word.length r).2.rest = tail := by
  induction word generalizing r with
  | nil => exact ⟨rfl, h, hrest⟩
  | cons c word ih =>
    rw [bytesBits_cons, List.append_assoc] at hrest
    obtain ⟨hchar, hok, hnext⟩ := BitReader.readBits_natBits h (by omega) hrest
    obtain ⟨hword, hok', hlast⟩ := ih hok hnext
    have hc : UInt8.ofNat (r.readBits 8).1 = c := by
      rw [hchar, Nat.mod_eq_of_lt c.toNat_lt, UInt8.ofNat_toNat]
    exact ⟨congrArg₂ List.cons hc hword, hok', hlast⟩

/-- The first word that is too long comes back with another length, and everything before it is
read exactly. -/
lemma readLocalWords_eq_iff {words : List Word} {r : BitReader} (h : r.Ok) {tail : List Bool}
    (hrest : r.rest = words.flatMap localWordBits ++ tail) :
    ((readLocalWords words.length r).1 = words ↔ ∀ w ∈ words, w.length < 256) ∧
      ((∀ w ∈ words, w.length < 256) → (readLocalWords words.length r).2.rest = tail) := by
  induction words generalizing r with
  | nil => exact ⟨iff_of_true rfl (by simp), fun _ => hrest⟩
  | cons w words ih =>
    rw [List.flatMap_cons, localWordBits, List.append_assoc, List.append_assoc] at hrest
    obtain ⟨hlen, hok, hnext⟩ := BitReader.readBits_natBits h (by omega) hrest
    have hsplit : readLocalWords (words.length + 1) r =
        ((readChars (w.length % 256) (r.readBits 8).2).1 ::
          (readLocalWords words.length (readChars (w.length % 256) (r.readBits 8).2).2).1,
        (readLocalWords words.length (readChars (w.length % 256) (r.readBits 8).2).2).2) := by
      rw [show w.length % 256 = (r.readBits 8).1 from hlen.symm]
      rfl
    rw [List.length_cons, hsplit, List.forall_mem_cons]
    by_cases hshort : w.length < 256
    · obtain ⟨hword, hok', hlast⟩ := readChars_bytesBits hok hnext
      obtain ⟨heq, hstop⟩ := ih hok' hlast
      rw [Nat.mod_eq_of_lt hshort]
      refine ⟨?_, fun hall => hstop hall.2⟩
      rw [hword, List.cons.injEq, and_iff_right rfl, heq, and_iff_right hshort]
    · refine ⟨iff_of_false (fun heq => ?_) fun hall => hshort hall.1, fun hall => absurd hall.1 hshort⟩
      -- the word that is read has the length byte's length
      have hword := congrArg List.length (List.cons.inj heq).1
      rw [readChars_length] at hword
      omega

/-- For every list of words and whatever is written behind it: the reader gets the list back
exactly if the count and all lengths fit their fields, and stands then at the first bit behind it. -/
theorem readLocalDictionary_eq_iff (words : List Word) (fields : List (UInt32 × ℕ)) :
    let buffer := (writeFields (writeLocalDictionary words {}) fields).flush.buffer
    ((readLocalDictionary ⟨buffer, 0, 0⟩).1 = words ↔
      words.length < 65536 ∧ ∀ w ∈ words, w.length < 256) ∧
    ((words.length < 65536 ∧ ∀ w ∈ words, w.length < 256) → ∃ padding, padding < 8 ∧
      (readLocalDictionary ⟨buffer, 0, 0⟩).2.rest =
        fieldBits fields ++ List.replicate padding false) := by
  intro buffer
  obtain ⟨hheader, hheaderBits⟩ := writeLocalDictionary_bits BitWriter.ok_empty words
  obtain ⟨hok, hbits⟩ := writeFields_bits hheader fields
  rw [hheaderBits, BitWriter.bits_empty, List.nil_append] at hbits
  set padding := (8 - (writeFields (writeLocalDictionary words {}) fields).bits.length % 8) % 8
    with hpadding
  have hrest : (⟨buffer, 0, 0⟩ : BitReader).rest = natBits 16 words.length ++
      (words.flatMap localWordBits ++ (fieldBits fields ++ List.replicate padding false)) := by
    rw [← List.nil_append buffer]
    refine (BitReader.rest_start [] buffer).trans ((BitWriter.bytesBits_flush hok).trans ?_)
    rw [← hpadding, hbits, headerBits]
    simp only [List.append_assoc]
  obtain ⟨hcount, hok', hnext⟩ :=
    BitReader.readBits_natBits (BitReader.ok_start buffer 0) (by omega) hrest
  have hread : readLocalDictionary ⟨buffer, 0, 0⟩ =
      readLocalWords (words.length % 65536) (BitReader.readBits ⟨buffer, 0, 0⟩ 16).2 := by
    rw [show words.length % 65536 = (BitReader.readBits ⟨buffer, 0, 0⟩ 16).1 from hcount.symm]
    rfl
  rw [hread]
  by_cases hfew : words.length < 65536
  · obtain ⟨heq, hstop⟩ := readLocalWords_eq_iff hok' hnext
    rw [Nat.mod_eq_of_lt hfew, heq, and_iff_right hfew]
    exact ⟨Iff.rfl, fun hshort => ⟨padding, Nat.mod_lt _ (by omega), hstop hshort⟩⟩
  · refine ⟨iff_of_false (fun heq => ?_) fun hall => hfew hall.1, fun hall => absurd hall.1 hfew⟩
    have hlen := congrArg List.length heq
    rw [readLocalWords_length] at hlen
    omega

end HashCompress.Compressor
