import HashCompress.ParsingHelpers

/-! `calculate_ip_checksum` and `add_ip_option_hash` of `xdp_prog_kern_02.c`. The rewriting works
at fixed offsets: Ethernet header of 14 bytes, IP header of 20 bytes, option of 36 bytes. -/
namespace HashCompress.OptionInsert
open ParsingHelpers

/-- The carry loop. Every pass lowers `sum`, so `sum` passes are more than enough. -/
def foldCarry : ℕ → UInt32 → UInt32
  | 0, sum => sum
  | n + 1, sum =>
      if sum >>> 16 = 0 then sum else foldCarry n ((sum &&& (0xFFFF : UInt32)) + (sum >>> 16))

def sumWords (header : List UInt8) (len : ℕ) : UInt32 :=
  (List.range (len / 2)).foldl (fun sum i => sum + (load16 header (2 * i)).toUInt32) 0

def calculateIpChecksum (header : List UInt8) (len : ℕ) : UInt16 :=
  let sum := sumWords header len
  let sum := if len % 2 = 1 then sum + (byteAt header (len - 1)).toUInt32 else sum
  (~~~(foldCarry sum.toNat sum)).toUInt16

def store16 (f : Frame) (i : ℕ) (x : UInt16) : Frame :=
  (f.set i (UInt8.ofNat x.toNat)).set (i + 1) (UInt8.ofNat (x.toNat / 256))

/-- `memcpy` of `bytes` to offset `i`, for a destination inside the frame. -/
def store (f : Frame) (i : ℕ) (bytes : List UInt8) : Frame :=
  f.take i ++ bytes ++ f.drop (i + bytes.length)

def ipOptHashId : UInt8 := 25
def ipOptHashLen : ℕ := 36

/-- The header updates before the option is written, for the IP header at `ETHERNET_HEADER_SIZE`. -/
def updateHeader (f : Frame) : Frame :=
  let f := f.set 14 ((byteAt f 14 &&& 0xF0) ||| 14)
  let f := store16 f 16 (bpfHtons (bpfNtohs (load16 f 16) + 36))
  store16 f 24 0

def optionBytes (hash : Vector UInt8 32) : List UInt8 :=
  [ipOptHashId, 36, 0x12, 0x34] ++ hash.toList

def updateChecksum (f : Frame) : Frame :=
  store16 f 24 (calculateIpChecksum (f.drop 14) (ihl f 14 * 4))

/-- The return value and the frame afterwards. `adjust` is the outcome of
`bpf_xdp_adjust_head(ctx, -36)`: failure, or the 36 bytes it puts before the frame. -/
def addIpOptionHash (adjust : Option (Vector UInt8 36)) (f : Frame) (hash : Vector UInt8 32) :
    ℤ × Frame :=
  if 34 > f.length then (-1, f)
  else
    let headersCopy := f.take 34
    match adjust with
    | none => (-1, f)
    | some room =>
        let f := room.toList ++ f
        if 34 > f.length then (-1, f)
        else
          let f := store f 0 headersCopy
          if 14 + 20 > f.length then (-1, f)
          else
            let f := updateHeader f
            if 34 + ipOptHashLen > f.length then (-1, f)
            else (0, updateChecksum (store f 34 (optionBytes hash)))

/-- The first twenty bytes of the rewritten IP header, with `check` as checksum field. -/
def taggedHeader (f : Frame) (check : UInt16) : List UInt8 :=
  let tot := bpfHtons (bpfNtohs (load16 f 16) + 36)
  [(byteAt f 14 &&& 0xF0) ||| 14, byteAt f 15, UInt8.ofNat tot.toNat, UInt8.ofNat (tot.toNat / 256),
    byteAt f 18, byteAt f 19, byteAt f 20, byteAt f 21, byteAt f 22, byteAt f 23,
    UInt8.ofNat check.toNat, UInt8.ofNat (check.toNat / 256),
    byteAt f 26, byteAt f 27, byteAt f 28, byteAt f 29, byteAt f 30, byteAt f 31, byteAt f 32,
    byteAt f 33]

@[simp] theorem optionBytes_length (hash : Vector UInt8 32) : (optionBytes hash).length = 36 := by
  simp [optionBytes]

@[simp] theorem taggedHeader_length (f : Frame) (check : UInt16) :
    (taggedHeader f check).length = 20 := rfl

/-- The first 34 bytes of a frame, the IP part written out byte by byte. -/
theorem take_thirtyfour {f : Frame} (h : 34 ≤ f.length) :
    f.take 34 = f.take 14 ++ (List.range 20).map fun i => byteAt f (14 + i) := by
  apply List.ext_getElem
  · simp
    omega
  · intro i h1 h2
    simp only [List.length_take, Nat.min_eq_left h] at h1
    by_cases hi : i < 14
    · rw [List.getElem_append_left (by simp; omega)]
      simp
    · rw [List.getElem_append_right (by simp; omega)]
      simp only [List.getElem_take, List.length_take, List.getElem_map, List.getElem_range]
      rw [byteAt, List.getD_eq_getElem _ _ (by omega)]
      congr 1
      omega

theorem byteAt_append_right {e : Frame} {n : ℕ} (he : e.length = n) (l : Frame) (k : ℕ) :
    byteAt (e ++ l) (n + k) = byteAt l k := by
  rw [byteAt, byteAt, List.getD_append_right _ _ _ _ (by omega), he, Nat.add_sub_cancel_left]

theorem load16_append_right {e : Frame} {n : ℕ} (he : e.length = n) (l : Frame) (k : ℕ) :
    load16 (e ++ l) (n + k) = load16 l k := by
  simp only [load16, Nat.add_assoc, byteAt_append_right he]

theorem set_append_right {e : Frame} {n : ℕ} (he : e.length = n) (l : Frame) (k : ℕ) (v : UInt8) :
    (e ++ l).set (n + k) v = e ++ l.set k v := by
  rw [List.set_append_right _ _ (by omega), he, Nat.add_sub_cancel_left]

theorem store16_append_right {e : Frame} {n : ℕ} (he : e.length = n) (l : Frame) (k : ℕ)
    (x : UInt16) : store16 (e ++ l) (n + k) x = e ++ store16 l k x := by
  simp only [store16, Nat.add_assoc, set_append_right he]

/-- The original twenty header bytes. -/
def plainHeader (f : Frame) : List UInt8 := (List.range 20).map fun i => byteAt f (14 + i)

theorem updateHeader_append (f : Frame) {e : Frame} (he : e.length = 14) (l : Frame) :
    updateHeader (e ++ (plainHeader f ++ l)) = e ++ (taggedHeader f 0 ++ l) := by
  have hset := set_append_right he (plainHeader f ++ l) 0
  have hbyte := byteAt_append_right he (plainHeader f ++ l) 0
  simp only [Nat.add_zero] at hset hbyte
  simp only [updateHeader, hset, hbyte, load16_append_right he _ 2, store16_append_right he _ 2,
    store16_append_right he _ 10]
  rfl

theorem setIhl_low (b : UInt8) : ((b &&& 0xF0) ||| 14).toNat % 16 = 14 := by
  rw [UInt8.toNat_or, UInt8.toNat_and, show 16 = 2 ^ 4 from rfl, Nat.or_mod_two_pow,
    Nat.and_mod_two_pow]
  simp

theorem setIhl_high (b : UInt8) : ((b &&& 0xF0) ||| 14).toNat / 16 = b.toNat / 16 := by
  have hb := b.toNat_lt
  have h16 : ∀ x : ℕ, x / 16 = x >>> 4 := fun x => by rw [Nat.shiftRight_eq_div_pow]
  rw [UInt8.toNat_or, UInt8.toNat_and, h16, Nat.shiftRight_or_distrib, Nat.shiftRight_and_distrib,
    ← h16]
  have hmask : b.toNat / 16 &&& 15 = b.toNat / 16 % 16 := Nat.and_two_pow_sub_one_eq_mod _ 4
  simp only [UInt8.reduceToNat, Nat.reduceShiftRight, Nat.or_zero]
  omega

theorem updateChecksum_append (f : Frame) {e : Frame} (he : e.length = 14) (l : Frame) :
    updateChecksum (e ++ (taggedHeader f 0 ++ l)) =
      e ++ (taggedHeader f (calculateIpChecksum (taggedHeader f 0 ++ l) 56) ++ l) := by
  have hbyte := byteAt_append_right he (taggedHeader f 0 ++ l) 0
  have hihl : ihl (e ++ (taggedHeader f 0 ++ l)) 14 = 14 := by
    rw [ihl, hbyte]
    exact setIhl_low (byteAt f 14)
  rw [updateChecksum, hihl, store16_append_right he _ 10, List.drop_left' he]
  rfl

/-- When the head room is granted the option always goes in: Ethernet header, rewritten IP header,
option, and then everything behind the first 34 bytes of the original frame. -/
theorem addIpOptionHash_some (room : Vector UInt8 36) {f : Frame} (hash : Vector UInt8 32)
    (h : 34 ≤ f.length) :
    addIpOptionHash (some room) f hash = (0, f.take 14 ++ (taggedHeader f
      (calculateIpChecksum (taggedHeader f 0 ++ (optionBytes hash ++ f.drop 34)) 56) ++
        (optionBytes hash ++ f.drop 34))) := by
  have h14 : (f.take 14).length = 14 := by rw [List.length_take]; omega
  have hroom : room.toList.length = 36 := by simp
  have hcopy : store (room.toList ++ f) 0 (f.take 34) =
      f.take 14 ++ (plainHeader f ++ (room.toList ++ f).drop 34) := by
    have hlen : (f.take 34).length = 34 := by rw [List.length_take]; omega
    rw [store, hlen, take_thirtyfour h]
    simp [plainHeader]
  have hoption : store (f.take 14 ++ (taggedHeader f 0 ++ (room.toList ++ f).drop 34)) 34
      (optionBytes hash) = f.take 14 ++ (taggedHeader f 0 ++ (optionBytes hash ++ f.drop 34)) := by
    have hpre : (f.take 14 ++ taggedHeader f 0).length = 34 := by
      rw [List.length_append, h14, taggedHeader_length]
    have hrest : ((room.toList ++ f).drop 34).drop 36 = f.drop 34 := by
      rw [List.drop_drop, List.drop_append, hroom, List.drop_of_length_le (by omega)]
      rfl
    have hdrop : ∀ l : Frame, l.drop (34 + 36) = (l.drop 34).drop 36 := by simp
    rw [store, ← List.append_assoc (f.take 14), List.take_left' hpre, optionBytes_length, hdrop,
      List.drop_left' hpre, hrest]
    simp
  have hlen : (room.toList ++ f).length = 36 + f.length := by rw [List.length_append, hroom]
  have hheader : 34 + ipOptHashLen ≤
      (f.take 14 ++ (taggedHeader f 0 ++ (room.toList ++ f).drop 34)).length := by
    simp only [List.length_append, h14, taggedHeader_length, List.length_drop, hroom, ipOptHashLen]
    omega
  have hplain : 14 + 20 ≤
      (f.take 14 ++ (plainHeader f ++ (room.toList ++ f).drop 34)).length := by
    simp only [List.length_append, h14, plainHeader, List.length_map, List.length_range]
    omega
  simp only [addIpOptionHash, if_neg (Nat.not_lt.mpr h), hlen, hcopy]
  rw [if_neg (by omega), if_neg (Nat.not_lt.mpr hplain), updateHeader_append f h14,
    if_neg (Nat.not_lt.mpr hheader), hoption, updateChecksum_append f h14]

end HashCompress.OptionInsert
