import HashCompress.OptionScans
import HashCompress.FrameHops

/-! The bytes of a captured packet on which the report of `packet_handler` depends. -/
namespace HashCompress.ReportFootprint
open Sha256Spec KeyedHash ParsingHelpers OptionInsert XdpProgram PacketPreservation HashVerifier
open OptionScans MessageNetwork FrameHops

/-- The packets agree from the EtherType to the end of the IP header of the first, its checksum field
left aside. -/
def LooksAlike (p q : List UInt8) : Prop :=
  ∀ i < max 34 (14 + ihl p 14 * 4), 12 ≤ i → i ≠ 24 → i ≠ 25 → p[i]? = q[i]?

instance (p q : List UInt8) : Decidable (LooksAlike p q) :=
  inferInstanceAs (Decidable (∀ i < max 34 (14 + ihl p 14 * 4), 12 ≤ i → i ≠ 24 → i ≠ 25 → p[i]? = q[i]?))

/-- Two copies of a header that differ in the checksum field only. -/
structure SameHeader (header header' : List UInt8) : Prop where
  length_eq : header.length = header'.length
  getElem_eq : ∀ i, i ≠ 10 → i ≠ 11 → header[i]? = header'[i]?

section Header

variable {header header' : List UInt8} (h : SameHeader header header')
include h

lemma SameHeader.byteAt_eq {i : ℕ} (h10 : i ≠ 10) (h11 : i ≠ 11) : byteAt header i = byteAt header' i := by
  simp only [byteAt, List.getD_eq_getElem?_getD, h.getElem_eq i h10 h11]

lemma SameHeader.isHashOption_eq {pos : ℕ} (hpos : 12 ≤ pos) :
    isHashOption header pos = isHashOption header' pos := by
  simp only [isHashOption, h.length_eq, h.byteAt_eq (show pos ≠ 10 by omega) (by omega),
    h.byteAt_eq (show pos + 1 ≠ 10 by omega) (by omega)]

lemma SameHeader.optionStep_eq {pos : ℕ} (hpos : 12 ≤ pos) :
    optionStep header pos = optionStep header' pos := by
  simp only [optionStep, h.byteAt_eq (show pos + 1 ≠ 10 by omega) (by omega)]

/-- The scan begins behind the checksum field. -/
lemma SameHeader.findHashOption_eq (n : ℕ) {pos : ℕ} (hpos : 12 ≤ pos) :
    findHashOption header n pos = findHashOption header' n pos := by
  induction n generalizing pos with
  | zero => rfl
  | succ n ih =>
    simp only [findHashOption, h.length_eq, h.byteAt_eq (show pos ≠ 10 by omega) (by omega),
      h.isHashOption_eq hpos, h.optionStep_eq hpos]
    rw [ih (show 12 ≤ pos + 1 by omega), ih (show 12 ≤ pos + optionStep header' pos by omega)]

lemma SameHeader.drop_eq {n : ℕ} (hn : 12 ≤ n) : header.drop n = header'.drop n := by
  apply List.ext_getElem?
  intro i
  rw [List.getElem?_drop, List.getElem?_drop, h.getElem_eq (n + i) (by omega) (by omega)]

lemma SameHeader.set (i : ℕ) (b : UInt8) : SameHeader (header.set i b) (header'.set i b) where
  length_eq := by rw [List.length_set, List.length_set, h.length_eq]
  getElem_eq k h10 h11 := by
    rw [List.getElem?_set, List.getElem?_set, h.length_eq, h.getElem_eq k h10 h11]

lemma SameHeader.store16 (i : ℕ) (x : UInt16) :
    SameHeader (OptionInsert.store16 header i x) (OptionInsert.store16 header' i x) :=
  (h.set i _).set (i + 1) _

/-- Once the field is overwritten the headers are equal. -/
lemma SameHeader.store16_check (x : UInt16) :
    OptionInsert.store16 header 10 x = OptionInsert.store16 header' 10 x := by
  apply List.ext_getElem?
  intro i
  by_cases h10 : i = 10
  · subst h10
    simp [OptionInsert.store16, List.getElem?_set, h.length_eq]
  · by_cases h11 : i = 11
    · subst h11
      simp [OptionInsert.store16, List.getElem?_set, h.length_eq]
    · exact (h.store16 10 x).getElem_eq i h10 h11

/-- The field is cleared before anything is hashed. -/
lemma SameHeader.restoreFields_eq (newIhl : UInt8) :
    restoreFields header newIhl = restoreFields header' newIhl := by
  have hfirst : byteAt header 0 = byteAt header' 0 := h.byteAt_eq (by omega) (by omega)
  unfold restoreFields
  rw [hfirst]
  have hset := h.set 0 ((byteAt header' 0 &&& 0xF0) ||| (newIhl &&& 0x0F))
  have hload : ∀ {l l' : List UInt8}, SameHeader l l' → load16 l 2 = load16 l' 2 := fun hl => by
    rw [load16, load16, hl.byteAt_eq (by omega) (by omega), hl.byteAt_eq (by omega) (by omega)]
  dsimp only
  rw [hload hset]
  exact (hset.store16 2 _).store16_check 0

lemma SameHeader.hashedData_eq (hl : ℕ) : hashedData header hl = hashedData header' hl := by
  simp only [hashedData, h.restoreFields_eq]

end Header

section Alike

variable {p q : List UInt8} (h : LooksAlike p q)
include h

lemma LooksAlike.le_length_iff {n : ℕ} (h12 : 12 < n) (hn : n ≤ max 34 (14 + ihl p 14 * 4))
    (h25 : n ≠ 25) (h26 : n ≠ 26) : n ≤ p.length ↔ n ≤ q.length := by
  have hget := h (n - 1) (by omega) (by omega) (by omega) (by omega)
  have hnone : p.length ≤ n - 1 ↔ q.length ≤ n - 1 := by
    rw [← List.getElem?_eq_none_iff, ← List.getElem?_eq_none_iff, hget]
  omega

lemma LooksAlike.byteAt_eq {i : ℕ} (h12 : 12 ≤ i) (hi : i < max 34 (14 + ihl p 14 * 4))
    (h24 : i ≠ 24) (h25 : i ≠ 25) : byteAt p i = byteAt q i := by
  simp only [byteAt, List.getD_eq_getElem?_getD, h i hi h12 h24 h25]

lemma LooksAlike.load16_eq : load16 p 12 = load16 q 12 := by
  rw [load16, load16, h.byteAt_eq (by omega) (by omega) (by omega) (by omega),
    h.byteAt_eq (by omega) (by omega) (by omega) (by omega)]

lemma LooksAlike.ihl_eq : ihl p 14 = ihl q 14 := by
  rw [ihl, ihl, h.byteAt_eq (by omega) (by omega) (by omega) (by omega)]

lemma LooksAlike.sameHeader (hp : 14 + ihl p 14 * 4 ≤ p.length) (hq : 14 + ihl p 14 * 4 ≤ q.length) :
    SameHeader ((p.drop 14).take (ihl p 14 * 4)) ((q.drop 14).take (ihl p 14 * 4)) where
  length_eq := by
    rw [List.length_take, List.length_take, List.length_drop, List.length_drop]
    omega
  getElem_eq i h10 h11 := by
    rw [List.getElem?_take, List.getElem?_take, List.getElem?_drop, List.getElem?_drop]
    split_ifs with hi
    · exact h (14 + i) (by omega) (by omega) (by omega) (by omega)
    · rfl

lemma LooksAlike.headerCaptured_iff : HeaderCaptured p ↔ HeaderCaptured q := by
  unfold HeaderCaptured
  have h34 := h.le_length_iff (n := 34) (by omega) (by omega) (by omega) (by omega)
  rw [h.load16_eq, ← h.ihl_eq]
  by_cases h5 : 5 < ihl p 14
  · rw [h34, h.le_length_iff (n := 14 + 4 * ihl p 14) (by omega) (by omega) (by omega) (by omega)]
  · have hsmall : ∀ n, 34 ≤ n → 14 + 4 * ihl p 14 ≤ n := fun n hn => by omega
    rw [and_iff_left_of_imp (hsmall _), and_iff_left_of_imp (hsmall _), h34]

end Alike

lemma packetHandler_noOptions (sha256 : List UInt8 → List UInt8) {p : List UInt8}
    (hproto : bpfNtohs (load16 p 12) = ethPIp) (h34 : 34 ≤ p.length) (h5 : ihl p 14 ≤ 5) :
    packetHandler sha256 p = some .noOptions := by
  have hdump : dumpIpHeader p (ihl p 14) = some () := by
    rw [dumpIpHeader, readRange_some (show 14 + 20 ≤ p.length by omega)]
    exact if_neg (by omega)
  unfold packetHandler
  rw [readRange_some (show 12 + 2 ≤ p.length by omega),
    readRange_some (show 14 + 1 ≤ p.length by omega)]
  simp only [hdump, Option.bind_eq_bind, Option.bind_some, hproto, ne_eq, not_true_eq_false,
    if_false, if_pos h5]

lemma packetHandler_short (sha256 : List UInt8 → List UInt8) {p : List UInt8} (h : ¬ 14 ≤ p.length) :
    packetHandler sha256 p = none := by
  unfold packetHandler
  rw [readRange_none (by omega)]
  rfl

lemma packetHandler_of_looksAlike (sha256 : List UInt8 → List UInt8) {p q : List UInt8}
    (h : LooksAlike p q) : packetHandler sha256 p = packetHandler sha256 q := by
  have h14 := h.le_length_iff (n := 14) (by omega) (by omega) (by omega) (by omega)
  by_cases hp14 : 14 ≤ p.length
  · have hq14 := h14.mp hp14
    by_cases hcap : HeaderCaptured p
    · have hcapq := h.headerCaptured_iff.mp hcap
      by_cases hproto : bpfNtohs (load16 p 12) = ethPIp
      · have hprotoq : bpfNtohs (load16 q 12) = ethPIp := by rw [← h.load16_eq, hproto]
        obtain ⟨h34, hfit⟩ := hcap.resolve_left (not_not.mpr hproto)
        obtain ⟨h34q, hfitq⟩ := hcapq.resolve_left (not_not.mpr hprotoq)
        by_cases h5 : 5 < ihl p 14
        · have hsame := h.sameHeader (by omega) (by rw [h.ihl_eq]; omega)
          rw [packetHandler_header sha256 hproto h5 (readRange_some (by omega)),
            packetHandler_header sha256 hprotoq (by rw [← h.ihl_eq]; exact h5)
              (readRange_some (by omega)), ← h.ihl_eq, ← hsame.length_eq,
            hsame.findHashOption_eq _ (by omega), hsame.hashedData_eq]
          cases hfind : findHashOption ((q.drop 14).take (ihl p 14 * 4))
              ((p.drop 14).take (ihl p 14 * 4)).length 20 with
          | none => rfl
          | some pos =>
            have hpos := (findHashOption_spec hfind).1
            dsimp only
            rw [hsame.drop_eq (by omega)]
        · rw [packetHandler_noOptions sha256 hproto h34 (by omega),
            packetHandler_noOptions sha256 hprotoq h34q (by rw [← h.ihl_eq]; omega)]
      · have hne : ∀ {g : Frame}, load16 g 12 = load16 p 12 → load16 g 12 ≠ bpfHtons ethPIp := by
          intro g hg he
          exact hproto (by rw [← hg, he]; rfl)
        rw [packetHandler_notIp sha256 hp14 (hne rfl),
          packetHandler_notIp sha256 hq14 (hne h.load16_eq.symm)]
    · have hnone : ∀ {g : List UInt8}, 14 ≤ g.length → ¬ HeaderCaptured g →
          packetHandler sha256 g = none := by
        intro g hg hno
        rw [← Option.not_isSome_iff_eq_none, packetHandler_isSome_iff sha256 hg]
        exact hno
      rw [hnone hp14 hcap, hnone hq14 (mt h.headerCaptured_iff.mpr hcap)]
  · rw [packetHandler_short sha256 hp14, packetHandler_short sha256 (mt h14.mpr hp14)]

/-! ### Frames as they leave a tagger -/

lemma setIhl_of_five {b c : UInt8} (h : (b &&& 0xF0) ||| 5 = (c &&& 0xF0) ||| 5) :
    (b &&& 0xF0) ||| 14 = (c &&& 0xF0) ||| 14 := by
  have hnibble : ∀ x : UInt8, ((x &&& 0xF0) ||| 5) &&& 0xF0 ||| 14 = (x &&& 0xF0) ||| 14 := by
    decide +kernel
  rw [← hnibble b, h, hnibble c]

/-- The header that the verifier rebuilds determines the one that the tagger wrote. -/
lemma taggedHeader_of_rebuiltHeader {f f' : Frame} (h : rebuiltHeader f = rebuiltHeader f') :
    taggedHeader (store16 f 24 0) 0 = taggedHeader (store16 f' 24 0) 0 := by
  have hkeep := fun (g : Frame) i h h' => byteAt_store16_ne g (i := i) (j := 24) 0 h h'
  rw [rebuiltHeader, rebuiltHeader, hashedHeader_eq, hashedHeader_eq] at h
  simp only [List.set_cons_zero, List.cons.injEq, true_and, and_true] at h
  obtain ⟨h14, h15, h16, h17, h18, h19, h20, h21, h22, h23, h26, h27, h28, h29, h30, h31, h32,
    h33⟩ := h
  have htot : load16 (store16 f 24 0) 16 = load16 (store16 f' 24 0) 16 := by
    rw [load16_store16_before f 0 (by omega), load16_store16_before f' 0 (by omega), load16, load16,
      h16, h17]
  rw [taggedHeader, taggedHeader, htot]
  simp (disch := omega) only [hkeep, setIhl_of_five h14, h15, h18, h19, h20, h21, h22, h23, h26, h27,
    h28, h29, h30, h31, h32, h33]

lemma byteAt_taggedHeader_check (f : Frame) (check : UInt16) {i : ℕ} (hi : i < 20) (h10 : i ≠ 10)
    (h11 : i ≠ 11) : byteAt (taggedHeader f check) i = byteAt (taggedHeader f 0) i := by
  interval_cases i <;> first | rfl | omega

lemma getElem?_eq_byteAt {l : List UInt8} {i : ℕ} (h : i < l.length) : l[i]? = some (byteAt l i) := by
  rw [byteAt, List.getD_eq_getElem _ _ h, List.getElem?_eq_getElem h]

/-- Frames with the same tagged header and the same option look alike. -/
lemma looksAlike_tagged {f f' : Frame} (check check' : UInt16) (hash : Vector UInt8 32)
    (hlen : 34 ≤ f.length) (hlen' : 34 ≤ f'.length) (hproto : load16 f 12 = load16 f' 12)
    (hheader : taggedHeader f 0 = taggedHeader f' 0) :
    LooksAlike (tagged f check hash) (tagged f' check' hash) := by
  intro i hi h12 h24 h25
  rw [ihl_tagged check hash hlen] at hi
  rw [getElem?_eq_byteAt (by rw [tagged_length check hash hlen]; omega),
    getElem?_eq_byteAt (by rw [tagged_length check' hash hlen']; omega), Option.some.injEq]
  by_cases hlink : i < 14
  · rw [byteAt_tagged_link check hash hlen hlink, byteAt_tagged_link check' hash hlen' hlink]
    have hsplit := load16_split f 12
    rw [hproto, (load16_split f' 12).1, (load16_split f' 12).2] at hsplit
    obtain rfl | rfl : i = 12 ∨ i = 13 := by omega
    · exact hsplit.1.symm
    · exact hsplit.2.symm
  · by_cases hfixed : i < 34
    · obtain ⟨k, rfl⟩ := Nat.exists_eq_add_of_le (Nat.le_of_not_lt hlink)
      rw [byteAt_tagged_header check hash hlen (by omega),
        byteAt_tagged_header check' hash hlen' (by omega),
        byteAt_taggedHeader_check f check (by omega) (by omega) (by omega),
        byteAt_taggedHeader_check f' check' (by omega) (by omega) (by omega), hheader]
    · obtain ⟨k, rfl⟩ := Nat.exists_eq_add_of_le (Nat.le_of_not_lt hfixed)
      have hbyte : ∀ l : Frame, byteAt l (34 + k) = byteAt (l.drop 34) k := fun l => by
        simp only [byteAt, List.getD_eq_getElem?_getD, List.getElem?_drop]
      rw [hbyte, hbyte, drop_tagged check hash hlen, drop_tagged check' hash hlen',
        byteAt_append_left _ (by rw [optionBytes_length]; omega),
        byteAt_append_left _ (by rw [optionBytes_length]; omega)]

end HashCompress.ReportFootprint
