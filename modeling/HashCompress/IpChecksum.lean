import HashCompress.PacketPreservation
import HashCompress.OnesComplement

/-! `calculate_ip_checksum` against the Internet checksum of RFC 1071, and the checksum of a header
into which the option was inserted. -/
namespace HashCompress.IpChecksum
open ParsingHelpers OptionInsert PacketPreservation OnesComplement

/-- The 16-bit words of a byte string in network order; an odd last byte is padded with zero. -/
def netWords (bytes : List UInt8) : List ℕ :=
  (List.range ((bytes.length + 1) / 2)).map fun i =>
    256 * (byteAt bytes (2 * i)).toNat + (byteAt bytes (2 * i + 1)).toNat

/-- The same words as the machine loads them. -/
def hostWords (bytes : List UInt8) : List ℕ :=
  (List.range ((bytes.length + 1) / 2)).map fun i => (load16 bytes (2 * i)).toNat

/-- `sum` when the carry loop begins. -/
def headerSum (header : List UInt8) (len : ℕ) : UInt32 :=
  if len % 2 = 1 then sumWords header len + (byteAt header (len - 1)).toUInt32
  else sumWords header len

def carryStep (sum : UInt32) : UInt32 := (sum &&& (0xFFFF : UInt32)) + (sum >>> 16)

/-- The carry loop, begun with `sum`, ends after exactly `n` passes with `r`. -/
structure FoldsIn (n : ℕ) (sum r : UInt32) : Prop where
  result : carryStep^[n] sum = r
  exit : r >>> 16 = 0
  busy : ∀ m < n, carryStep^[m] sum >>> 16 ≠ 0

/-! ### The carry loop -/

lemma shiftRight_eq_zero_iff (sum : UInt32) : sum >>> 16 = 0 ↔ sum.toNat < 65536 := by
  have hs := sum.toNat_lt
  rw [← UInt32.toNat_inj, UInt32.toNat_shiftRight]
  simp only [UInt32.reduceToNat, Nat.reduceMod, Nat.shiftRight_eq_div_pow]
  omega

lemma carryStep_toNat (sum : UInt32) :
    (carryStep sum).toNat = sum.toNat % 65536 + sum.toNat / 65536 := by
  have hs := sum.toNat_lt
  have hmask : sum.toNat &&& 65535 = sum.toNat % 65536 := Nat.and_two_pow_sub_one_eq_mod _ 16
  rw [carryStep, UInt32.toNat_add, UInt32.toNat_and, UInt32.toNat_shiftRight]
  simp only [UInt32.reduceToNat, Nat.reduceMod, Nat.shiftRight_eq_div_pow, hmask]
  omega

lemma foldCarry_of_exit {n : ℕ} {sum : UInt32} (h : sum >>> 16 = 0) : foldCarry n sum = sum := by
  cases n with
  | zero => rfl
  | succ n => rw [foldCarry, if_pos h]

lemma foldCarry_of_busy {n : ℕ} {sum : UInt32} (h : sum >>> 16 ≠ 0) :
    foldCarry (n + 1) sum = foldCarry n (carryStep sum) := by
  rw [foldCarry, if_neg h, carryStep]

/-- Two passes are enough for any sum: the first leaves less than 2^17, the second less than 2^16. -/
lemma exists_foldsIn (sum : UInt32) :
    ∃ n ≤ 2, FoldsIn n sum (foldCarry sum.toNat sum) := by
  have hs := sum.toNat_lt
  by_cases h0 : sum >>> 16 = 0
  · refine ⟨0, by omega, ?_, ?_, by omega⟩
    · exact (foldCarry_of_exit h0).symm
    · rw [foldCarry_of_exit h0]
      exact h0
  have hbig : 65536 ≤ sum.toNat := by
    rw [shiftRight_eq_zero_iff] at h0
    omega
  obtain ⟨fuel, hfuel⟩ : ∃ fuel, sum.toNat = fuel + 1 + 1 := ⟨sum.toNat - 2, by omega⟩
  by_cases h1 : carryStep sum >>> 16 = 0
  · have hfold : foldCarry sum.toNat sum = carryStep sum := by
      rw [hfuel, foldCarry_of_busy h0, foldCarry_of_exit h1]
    refine ⟨1, by omega, hfold.symm, by rw [hfold]; exact h1, ?_⟩
    intro m hm
    obtain rfl : m = 0 := by omega
    exact h0
  have h2 : carryStep (carryStep sum) >>> 16 = 0 := by
    rw [shiftRight_eq_zero_iff, carryStep_toNat, carryStep_toNat]
    rw [shiftRight_eq_zero_iff, carryStep_toNat] at h1
    omega
  have hfold : foldCarry sum.toNat sum = carryStep (carryStep sum) := by
    rw [hfuel, foldCarry_of_busy h0, foldCarry_of_busy h1, foldCarry_of_exit h2]
  refine ⟨2, le_rfl, hfold.symm, by rw [hfold]; exact h2, ?_⟩
  intro m hm
  rcases (by omega : m = 0 ∨ m = 1) with rfl | rfl
  · exact h0
  · exact h1

lemma carryStep_residue (sum : UInt32) : residue (carryStep sum).toNat = residue sum.toNat := by
  rw [carryStep_toNat]
  unfold residue
  split_ifs <;> omega

lemma iterate_carryStep_residue (n : ℕ) (sum : UInt32) :
    residue (carryStep^[n] sum).toNat = residue sum.toNat := by
  induction n with
  | zero => rfl
  | succ n ih => rw [Function.iterate_succ_apply', carryStep_residue, ih]

/-- What the loop leaves is the sum in ones' complement. -/
lemma FoldsIn.toNat_eq {n : ℕ} {sum r : UInt32} (h : FoldsIn n sum r) :
    r.toNat = residue sum.toNat := by
  have hlt : r.toNat < 65536 := (shiftRight_eq_zero_iff r).mp h.exit
  rw [← residue_of_lt hlt, ← h.result, iterate_carryStep_residue]

lemma complement_toNat {r : UInt32} (h : r.toNat < 65536) :
    ((~~~r).toUInt16).toNat = 65535 - r.toNat := by
  have hs := r.toNat_lt
  rw [UInt32.toNat_toUInt16, UInt32.toNat_not]
  simp only [UInt32.size]
  omega

/-! ### The sum of the words -/

lemma hostWords_lt (bytes : List UInt8) : ∀ w ∈ hostWords bytes, w < 65536 := by
  intro w hw
  obtain ⟨i, -, rfl⟩ := List.mem_map.mp hw
  exact (load16 bytes (2 * i)).toNat_lt

lemma netWords_eq (bytes : List UInt8) : netWords bytes = (hostWords bytes).map swap := by
  unfold netWords hostWords
  rw [List.map_map]
  refine List.map_congr_left fun i _ => ?_
  have h0 := (byteAt bytes (2 * i)).toNat_lt
  have h1 := (byteAt bytes (2 * i + 1)).toNat_lt
  simp only [Function.comp_apply, load16_toNat, swap]
  omega

lemma foldl_load16 (header : List UInt8) {k : ℕ} (hk : k ≤ 30) :
    ((List.range k).foldl (fun sum i => sum + (load16 header (2 * i)).toUInt32) 0).toNat =
        ((List.range k).map fun i => (load16 header (2 * i)).toNat).sum ∧
      ((List.range k).map fun i => (load16 header (2 * i)).toNat).sum ≤ k * 65535 := by
  induction k with
  | zero => simp
  | succ k ih =>
    obtain ⟨hsum, hle⟩ := ih (by omega)
    have hword := (load16 header (2 * k)).toNat_lt
    rw [List.range_succ, List.foldl_append, List.map_append, List.sum_append]
    simp only [List.foldl_cons, List.foldl_nil, List.map_cons, List.map_nil, List.sum_singleton,
      UInt32.toNat_add, UInt16.toNat_toUInt32, hsum]
    omega

lemma byteAt_take_end (header : List UInt8) {n i : ℕ} (h : n ≤ i) : byteAt (header.take n) i = 0 := by
  simp only [byteAt, List.getD_eq_getElem?_getD, List.getElem?_take, if_neg (Nat.not_lt.mpr h)]
  rfl

/-- Up to 60 bytes the 32-bit sum does not overflow. -/
lemma headerSum_toNat {header : List UInt8} {len : ℕ} (hlen : len ≤ header.length)
    (h60 : len ≤ 60) : (headerSum header len).toNat = (hostWords (header.take len)).sum := by
  obtain ⟨hsum, hle⟩ := foldl_load16 header (show len / 2 ≤ 30 by omega)
  have hfull : (List.range (len / 2)).map (fun i => (load16 (header.take len) (2 * i)).toNat) =
      (List.range (len / 2)).map fun i => (load16 header (2 * i)).toNat := by
    refine List.map_congr_left fun i hi => ?_
    have hlt := List.mem_range.mp hi
    rw [load16_toNat, load16_toNat, byteAt_take header (by omega), byteAt_take header (by omega)]
  unfold headerSum hostWords sumWords
  rw [List.length_take, Nat.min_eq_left hlen]
  split_ifs with hodd
  · have hcount : (len + 1) / 2 = len / 2 + 1 := by omega
    have hindex : 2 * (len / 2) = len - 1 := by omega
    have hlast : (load16 (header.take len) (2 * (len / 2))).toNat =
        (byteAt header (len - 1)).toNat := by
      rw [load16_toNat, hindex, byteAt_take header (by omega), byteAt_take_end header (by omega)]
      rfl
    have hbyte := (byteAt header (len - 1)).toNat_lt
    rw [hcount, List.range_succ, List.map_append, hfull, List.map_singleton, hlast, List.sum_append,
      List.sum_singleton, UInt32.toNat_add, hsum, UInt8.toNat_toUInt32]
    omega
  · have hcount : (len + 1) / 2 = len / 2 := by omega
    rw [hcount, hfull, hsum]

/-- The value returned, in the byte order of the machine. -/
lemma calculateIpChecksum_toNat {header : List UInt8} {len : ℕ} (hlen : len ≤ header.length)
    (h60 : len ≤ 60) :
    (calculateIpChecksum header len).toNat = checksum (hostWords (header.take len)) := by
  obtain ⟨n, -, hfold⟩ := exists_foldsIn (headerSum header len)
  have hr := hfold.toNat_eq
  have hdef : calculateIpChecksum header len =
      (~~~(foldCarry (headerSum header len).toNat (headerSum header len))).toUInt16 := rfl
  rw [hdef, complement_toNat ((shiftRight_eq_zero_iff _).mp hfold.exit), hr,
    headerSum_toNat hlen h60, checksum, sum_eq_residue (hostWords_lt _)]

/-! ### The checksum field -/

lemma byteAt_store16_self {f : Frame} {i : ℕ} (x : UInt16) (h : i + 1 < f.length) :
    byteAt (store16 f i x) i = UInt8.ofNat x.toNat ∧
      byteAt (store16 f i x) (i + 1) = UInt8.ofNat (x.toNat / 256) := by
  simp only [byteAt, store16, List.getD_eq_getElem?_getD, List.getElem?_set, List.length_set]
  constructor
  · rw [if_neg (by omega), if_pos trivial, if_pos (by omega)]
    rfl
  · rw [if_pos trivial, if_pos (by omega)]
    rfl

lemma load16_store16_self {f : Frame} {i : ℕ} (x : UInt16) (h : i + 1 < f.length) :
    load16 (store16 f i x) i = x := by
  obtain ⟨h0, h1⟩ := byteAt_store16_self x h
  exact load16_eq h0 h1

lemma hostWords_store16 {bytes : List UInt8} {j : ℕ} (x : UInt16) (h : 2 * j + 1 < bytes.length) :
    hostWords (store16 bytes (2 * j) x) = (hostWords bytes).set j x.toNat := by
  unfold hostWords
  rw [XdpProgram.store16_length]
  refine List.ext_getElem (by simp) fun i hi hi' => ?_
  rw [List.getElem_set]
  simp only [List.getElem_map, List.getElem_range]
  split_ifs with hij
  · rw [← hij, load16_store16_self x h]
  · rw [load16_toNat, load16_toNat, byteAt_store16_ne _ x (by omega) (by omega),
      byteAt_store16_ne _ x (by omega) (by omega)]

/-- A word that was zero and now holds the checksum of the others completes the sum. -/
lemma sum_hostWords_checksum {bytes : List UInt8} {j : ℕ} {x : UInt16}
    (h : 2 * j + 1 < bytes.length) (hzero : load16 bytes (2 * j) = 0)
    (hx : x.toNat = checksum (hostWords bytes)) :
    sum (hostWords (store16 bytes (2 * j) x)) = 65535 := by
  have hj : j < (hostWords bytes).length := by
    simp only [hostWords, List.length_map, List.length_range]
    omega
  have hword : (hostWords bytes)[j] = 0 := by
    simp [hostWords, hzero]
  have hsplit : (hostWords bytes).sum =
      ((hostWords bytes).take j).sum + ((hostWords bytes).drop (j + 1)).sum := by
    have happend := congrArg List.sum (List.take_append_drop j (hostWords bytes))
    rw [List.sum_append, List.drop_eq_getElem_cons hj, List.sum_cons, hword, Nat.zero_add] at happend
    exact happend.symm
  have htotal : (hostWords (store16 bytes (2 * j) x)).sum =
      (hostWords bytes).sum + (65535 - residue (hostWords bytes).sum) := by
    rw [hostWords_store16 x h, List.sum_set, if_pos hj, hsplit, hx, checksum,
      sum_eq_residue (hostWords_lt _), ← hsplit]
    omega
  rw [sum_eq_residue (hostWords_lt _), htotal, residue_add_checksum]

/-- `calculate_ip_checksum` ends after at most two passes of its carry loop and returns the checksum
of RFC 1071; and the header of every frame that gets the option sums up to `0xFFFF`. -/
theorem ipChecksum_valid :
    (∀ header : List UInt8, header.length ≤ 60 →
      (∃ n ≤ 2, ∃ r, FoldsIn n (headerSum header header.length) r ∧
        calculateIpChecksum header header.length = (~~~r).toUInt16) ∧
      (bpfNtohs (calculateIpChecksum header header.length)).toNat = checksum (netWords header)) ∧
    ∀ (adjust : Option (Vector UInt8 36)) (f f' : Frame) (hash : Vector UInt8 32),
      addIpOptionHash adjust f hash = (0, f') →
        ((f'.drop 14).take 56).length = 56 ∧ sum (netWords ((f'.drop 14).take 56)) = 65535 := by
  refine ⟨fun header h60 => ⟨?_, ?_⟩, fun adjust f f' hash hret => ?_⟩
  · obtain ⟨n, hn, hfold⟩ := exists_foldsIn (headerSum header header.length)
    exact ⟨n, hn, _, hfold, rfl⟩
  · have hlt : sum (hostWords header) < 65536 := by
      rw [sum_eq_residue (hostWords_lt _)]
      exact residue_lt _
    have hswap : ∀ x : ℕ, x % 256 * 256 + x / 256 = swap x := fun x => rfl
    rw [bpfNtohs_toNat, calculateIpChecksum_toNat le_rfl h60, List.take_length, hswap, checksum,
      swap_complement hlt, swap_sum (hostWords_lt _), ← netWords_eq, checksum]
  · obtain ⟨hlen, rfl⟩ := addIpOptionHash_eq_zero hret
    set bytes := taggedHeader f 0 ++ optionBytes hash with hbytes
    have h56 : bytes.length = 56 := by simp [hbytes]
    have hcheck : (calculateIpChecksum (bytes ++ f.drop 34) 56).toNat = checksum (hostWords bytes) := by
      rw [calculateIpChecksum_toNat (by rw [List.length_append]; omega) (by omega),
        List.take_left' h56]
    have hheader : ∀ check, ((tagged f check hash).drop 14).take 56 = store16 bytes (2 * 5) check := by
      intro check
      rw [header_tagged check hash hlen]
      rfl
    rw [← List.append_assoc, hheader, netWords_eq, ← swap_sum (hostWords_lt _),
      sum_hostWords_checksum (by omega) rfl hcheck]
    exact ⟨by simp [store16, h56], rfl⟩

theorem ipChecksum_valid_sample :
    (bpfNtohs (calculateIpChecksum (plainHeader XdpProgram.sampleFrame) 20)).toNat =
        checksum (netWords (plainHeader XdpProgram.sampleFrame)) ∧
      ∃ f', addIpOptionHash (some (Vector.replicate 36 0)) XdpProgram.sampleFrame
          (Vector.replicate 32 0) = (0, f') ∧ sum (netWords ((f'.drop 14).take 56)) = 65535 := by
  refine ⟨(ipChecksum_valid.1 (plainHeader XdpProgram.sampleFrame) (by decide)).2, ?_⟩
  have hret := addIpOptionHash_some (Vector.replicate 36 0) (Vector.replicate 32 0)
    (show 34 ≤ XdpProgram.sampleFrame.length by decide)
  exact ⟨_, hret, (ipChecksum_valid.2 _ _ _ _ hret).2⟩

end HashCompress.IpChecksum
