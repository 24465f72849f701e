import HashCompress.PacketPreservation

/-! `packet_handler` of `hash_verifier.c`, and what it makes of a frame the kernel program tagged.
Reads outside the captured bytes make the handler `none`. -/
namespace HashCompress.HashVerifier
open Sha256Kernel Sha256Spec KeyedHash ParsingHelpers OptionInsert XdpProgram PacketPreservation

def readRange (packet : List UInt8) (offset n : ℕ) : Option (List UInt8) :=
  if offset + n ≤ packet.length then some ((packet.drop offset).take n) else none

theorem readRange_some {packet : List UInt8} {offset n : ℕ} (h : offset + n ≤ packet.length) :
    readRange packet offset n = some ((packet.drop offset).take n) := if_pos h

theorem readRange_none {packet : List UInt8} {offset n : ℕ} (h : ¬ offset + n ≤ packet.length) :
    readRange packet offset n = none := if_neg h

/-- How a call of `packet_handler` ends. `checked` carries the hash found in the packet, the
reconstructed header that is hashed, and the result of the comparison. -/
inductive Report where
  | notIp
  | noOptions
  | noHash
  | checked (received header : List UInt8) (same : Bool)
  deriving DecidableEq

/-- The bytes `dump_ip_header` prints: the fixed header and, if there are any, the options. -/
def dumpIpHeader (packet : List UInt8) (hl : ℕ) : Option Unit := do
  let _ ← readRange packet 14 20
  if hl > 5 then
    let _ ← readRange packet 34 ((hl - 5) * 4)
    some ()
  else some ()

def isHashOption (header : List UInt8) (pos : ℕ) : Bool :=
  byteAt header pos == ipOptHashId && decide (pos + 1 < header.length) &&
    byteAt header (pos + 1) == 36 && decide (pos + 36 ≤ header.length)

/-- The step to the next option: its length byte, with zero read as one. -/
def optionStep (header : List UInt8) (pos : ℕ) : ℕ :=
  if byteAt header (pos + 1) = 0 then 1 else (byteAt header (pos + 1)).toNat

/-- The first scan, from `pos` on. Every iteration advances, so the header's length bounds the
number of iterations. -/
def findHashOption (header : List UInt8) : ℕ → ℕ → Option ℕ
  | 0, _ => none
  | n + 1, pos =>
      if pos < header.length then
        if byteAt header pos = 0 then none
        else if byteAt header pos = 1 then findHashOption header n (pos + 1)
        else if isHashOption header pos then some pos
        else if pos + 1 ≥ header.length then none
        else findHashOption header n (pos + optionStep header pos)
      else none

/-- The second scan, which knows neither NOP nor end of options, and the `memmove` over the option
it finds. The flag is `found_option`. -/
def removeHashOption (header : List UInt8) : ℕ → ℕ → List UInt8 × Bool
  | 0, _ => (header, false)
  | n + 1, pos =>
      if pos < header.length then
        if isHashOption header pos then
          (header.take pos ++ header.drop (pos + 36) ++ header.drop (header.length - 36), true)
        else if pos + 1 ≥ header.length then (header, false)
        else removeHashOption header n (pos + optionStep header pos)
      else (header, false)

/-- The header fields put back to what they were before the option: header length, total length,
checksum zero. -/
def restoreFields (header : List UInt8) (newIhl : UInt8) : List UInt8 :=
  let header := header.set 0 ((byteAt header 0 &&& 0xF0) ||| (newIhl &&& 0x0F))
  let header := store16 header 2 (bpfHtons (bpfNtohs (load16 header 2) - 36))
  store16 header 10 0

/-- `compute_keyed_hash` of the verifier, for the linked hash function `sha256`. -/
def verifierHash (sha256 : List UInt8 → List UInt8) (data : List UInt8) : List UInt8 :=
  sha256 (secretKey ++ data)

def packetHandler (sha256 : List UInt8 → List UInt8) (packet : List UInt8) : Option Report := do
  let _ ← readRange packet 12 2
  if bpfNtohs (load16 packet 12) ≠ ethPIp then some .notIp
  else
    let _ ← readRange packet 14 1
    let hl := ihl packet 14
    dumpIpHeader packet hl
    if hl ≤ 5 then some .noOptions
    else
      let header ← readRange packet 14 (hl * 4)
      match findHashOption header header.length 20 with
      | none => some .noHash
      | some pos =>
          let received := (header.drop (pos + 4)).take 32
          let newIhl := UInt8.ofNat hl - 9
          let restored := restoreFields header newIhl
          let stripped := (removeHashOption restored restored.length 20).1
          let data := stripped.take (newIhl.toNat * 4)
          some (.checked received data (received == (verifierHash sha256 data).take 32))

/-- What the handler hashes once it has found a hash option in a header of `hl` words. -/
def hashedData (header : List UInt8) (hl : ℕ) : List UInt8 :=
  let newIhl := UInt8.ofNat hl - 9
  let restored := restoreFields header newIhl
  ((removeHashOption restored restored.length 20).1).take (newIhl.toNat * 4)

/-- The report for an IP packet with options whose whole header was captured. -/
theorem packetHandler_header (sha256 : List UInt8 → List UInt8) {packet header : List UInt8}
    (hproto : bpfNtohs (load16 packet 12) = ethPIp) (hihl : 5 < ihl packet 14)
    (hheader : readRange packet 14 (ihl packet 14 * 4) = some header) :
    packetHandler sha256 packet = some (
      match findHashOption header header.length 20 with
      | none => .noHash
      | some pos =>
          let received := (header.drop (pos + 4)).take 32
          let data := hashedData header (ihl packet 14)
          .checked received data (received == (verifierHash sha256 data).take 32)) := by
  have hfit : 14 + ihl packet 14 * 4 ≤ packet.length := by
    unfold readRange at hheader
    split_ifs at hheader with hfit
    exact hfit
  have hdump : dumpIpHeader packet (ihl packet 14) = some () := by
    rw [dumpIpHeader, readRange_some (show 14 + 20 ≤ packet.length by omega),
      readRange_some (show 34 + (ihl packet 14 - 5) * 4 ≤ packet.length by omega)]
    exact if_pos hihl
  unfold packetHandler
  rw [readRange_some (show 12 + 2 ≤ packet.length by omega),
    readRange_some (show 14 + 1 ≤ packet.length by omega)]
  simp only [hdump, hheader, Option.bind_eq_bind, Option.bind_some, hproto, ne_eq,
    not_true_eq_false, if_false, if_neg (not_le.mpr hihl)]
  cases findHashOption header header.length 20 with
  | none => rfl
  | some pos => rfl

/-- The handler reaches its `HASH MATCH` branch. -/
def HashMatch (r : Option Report) : Prop := ∃ received header, r = some (.checked received header true)

/-- The twenty header bytes that the kernel program hashes: checksum zero, the rest as received. -/
def hashedHeader (f : Frame) : List UInt8 := plainHeader (store16 f 24 0)

/-- The twenty header bytes that the verifier hashes: as before, but with header length 5. -/
def rebuiltHeader (f : Frame) : List UInt8 :=
  (hashedHeader f).set 0 ((byteAt f 14 &&& 0xF0) ||| 5)

theorem readRange_tagged {f : Frame} (check : UInt16) (hash : Vector UInt8 32)
    (h : 34 ≤ f.length) :
    readRange (tagged f check hash) 14 56 = some (taggedHeader f check ++ optionBytes hash) := by
  have hlen := tagged_length check hash h
  rw [readRange, if_pos (by omega), header_tagged check hash h]

theorem optionBytes_eq (hash : Vector UInt8 32) :
    optionBytes hash = 25 :: 36 :: 0x12 :: 0x34 :: hash.toList := rfl

theorem isHashOption_append {header : List UInt8} (hash : Vector UInt8 32)
    (h : header.length = 20) : isHashOption (header ++ optionBytes hash) 20 = true := by
  have hbyte := fun k => byteAt_append_right h (optionBytes hash) k
  have h0 := hbyte 0
  have h1 := hbyte 1
  simp only [Nat.add_zero, Nat.reduceAdd] at h0 h1
  simp only [isHashOption, h0, h1, List.length_append, h, optionBytes_length]
  rfl

theorem findHashOption_append {header : List UInt8} (hash : Vector UInt8 32)
    (h : header.length = 20) :
    findHashOption (header ++ optionBytes hash) (header ++ optionBytes hash).length 20 =
      some 20 := by
  have hlen : (header ++ optionBytes hash).length = 55 + 1 := by simp [h]
  have h0 := byteAt_append_right h (optionBytes hash) 0
  simp only [Nat.add_zero] at h0
  have h25 : byteAt (header ++ optionBytes hash) 20 = 25 := h0
  rw [hlen, findHashOption, hlen, h25, isHashOption_append hash h]
  rfl

theorem removeHashOption_append {header : List UInt8} (hash : Vector UInt8 32)
    (h : header.length = 20) :
    ((removeHashOption (header ++ optionBytes hash) (header ++ optionBytes hash).length
      20).1).take 20 = header := by
  have hlen : (header ++ optionBytes hash).length = 55 + 1 := by simp [h]
  rw [hlen, removeHashOption, hlen, isHashOption_append hash h, if_pos (by omega), if_pos rfl]
  simp only [List.append_assoc]
  rw [List.take_left' h, List.take_left' h]

theorem load16_bytes (x : UInt16) (a b : UInt8) (l : List UInt8) :
    load16 (a :: b :: UInt8.ofNat x.toNat :: UInt8.ofNat (x.toNat / 256) :: l) 2 = x :=
  load16_eq rfl rfl

theorem load16_split (f : Frame) (i : ℕ) : UInt8.ofNat (load16 f i).toNat = byteAt f i ∧
    UInt8.ofNat ((load16 f i).toNat / 256) = byteAt f (i + 1) := by
  have h0 := (byteAt f i).toNat_lt
  have h1 := (byteAt f (i + 1)).toNat_lt
  constructor
  · apply UInt8.toNat_inj.mp
    rw [load16_toNat, UInt8.toNat_ofNat']
    omega
  · apply UInt8.toNat_inj.mp
    rw [load16_toNat, UInt8.toNat_ofNat']
    omega

theorem setIhl_again (b : UInt8) :
    ((((b &&& 0xF0) ||| 14) &&& 0xF0) ||| ((5 : UInt8) &&& 0x0F)) = (b &&& 0xF0) ||| 5 := by
  revert b
  decide +kernel

theorem byteAt_store16_zero (f : Frame) (i : ℕ) :
    byteAt (store16 f i 0) i = 0 ∧ byteAt (store16 f i 0) (i + 1) = 0 := by
  simp only [byteAt, store16, List.getD_eq_getElem?_getD, List.getElem?_set, List.length_set]
  constructor
  · rw [if_neg (by omega), if_pos trivial]
    split_ifs <;> rfl
  · rw [if_pos trivial]
    split_ifs <;> rfl

/-- The verifier undoes the header edit, except that the header length becomes 5 whatever it was. -/
theorem restoreFields_tagged (f : Frame) (check : UInt16) (l : List UInt8) :
    restoreFields (taggedHeader (store16 f 24 0) check ++ l) 5 = rebuiltHeader f ++ l := by
  generalize hf₀ : store16 f 24 0 = f₀
  have hkeep : byteAt f₀ 14 = byteAt f 14 := by
    rw [← hf₀, byteAt_store16_ne f 0 (by omega) (by omega)]
  have h24 : byteAt f₀ 24 = 0 := hf₀ ▸ (byteAt_store16_zero f 24).1
  have h25 : byteAt f₀ 25 = 0 := hf₀ ▸ (byteAt_store16_zero f 24).2
  obtain ⟨h16, h17⟩ := load16_split f₀ 16
  have htot : bpfHtons (bpfNtohs (bpfHtons (bpfNtohs (load16 f₀ 16) + 36)) - 36) =
      load16 f₀ 16 := by
    rw [bpfNtohs_bpfHtons, UInt16.add_sub_cancel]
    exact bpfNtohs_bpfHtons _
  have hplain : rebuiltHeader f = ((byteAt f 14 &&& 0xF0) ||| 5) :: (plainHeader f₀).tail := by
    rw [rebuiltHeader, hashedHeader, hf₀]
    rfl
  have htail : (plainHeader f₀).tail = [byteAt f₀ 15, byteAt f₀ 16, byteAt f₀ 17, byteAt f₀ 18,
      byteAt f₀ 19, byteAt f₀ 20, byteAt f₀ 21, byteAt f₀ 22, byteAt f₀ 23, byteAt f₀ 24,
      byteAt f₀ 25, byteAt f₀ 26, byteAt f₀ 27, byteAt f₀ 28, byteAt f₀ 29, byteAt f₀ 30,
      byteAt f₀ 31, byteAt f₀ 32, byteAt f₀ 33] := rfl
  simp only [restoreFields, taggedHeader, List.cons_append, List.set_cons_zero, load16_bytes, htot,
    store16, List.set_cons_succ, h16, h17, hplain, htail, h24, h25, byteAt_cons_zero, hkeep,
    setIhl_again]
  rfl

/-- What the handler does with a frame the kernel program has tagged. -/
theorem packetHandler_tagged (sha256 : List UInt8 → List UInt8) {f : Frame} (check : UInt16)
    (hash : Vector UInt8 32) (h : 34 ≤ f.length) (hproto : load16 f 12 = bpfHtons ethPIp) :
    packetHandler sha256 (tagged (store16 f 24 0) check hash) =
      some (.checked hash.toList (rebuiltHeader f)
        (hash.toList == (sha256 (secretKey ++ rebuiltHeader f)).take 32)) := by
  have hlen₀ : 34 ≤ (store16 f 24 0).length := by rw [store16_length]; exact h
  have hload : load16 (tagged (store16 f 24 0) check hash) 12 = bpfHtons ethPIp := by
    rw [load16_tagged_link check hash hlen₀, load16_store16_before f 0 (by omega), hproto]
  have hihl := ihl_tagged check hash hlen₀
  have hheader := readRange_tagged check hash hlen₀
  have htagged : (taggedHeader (store16 f 24 0) check).length = 20 := taggedHeader_length _ _
  have hrebuilt : (rebuiltHeader f).length = 20 := by simp [rebuiltHeader, hashedHeader, plainHeader]
  have hreceived : ((taggedHeader (store16 f 24 0) check ++ optionBytes hash).drop (20 + 4)).take 32
      = hash.toList := by
    rw [← List.drop_drop, List.drop_left' htagged, optionBytes_eq]
    simp
  have hnew : (UInt8.ofNat 14 - 9 : UInt8) = 5 := by decide
  have hdata : hashedData (taggedHeader (store16 f 24 0) check ++ optionBytes hash) 14 =
      rebuiltHeader f := by
    simp only [hashedData, hnew, restoreFields_tagged]
    exact removeHashOption_append hash hrebuilt
  rw [packetHandler_header sha256 (by rw [hload, bpfNtohs_bpfHtons]) (by rw [hihl]; omega)
    (by rw [hihl]; exact hheader), findHashOption_append hash htagged, hihl]
  dsimp only
  rw [hreceived, hdata]
  rfl

theorem drop_take_header {f : Frame} (h : 34 ≤ f.length) : (f.drop 14).take 20 = plainHeader f := by
  have h14 : (f.take 14).length = 14 := by rw [List.length_take]; omega
  have hswap : (f.drop 14).take 20 = (f.take 34).drop 14 := by rw [List.drop_take]
  rw [hswap, take_thirtyfour h, List.drop_left' h14, plainHeader]

/-- The hash inserted into an untagged frame, and its reading by the verifier. -/
theorem packetHandler_inserted (sha256 : List UInt8 → List UInt8) {env : Helpers} {f : Frame}
    {cpu : Cpu} {pos : ℕ} (hok : env.lookups = .ok) (hpos : ipv4Header f = some pos)
    (hv : protoIsVlan (load16 f 12) = false)
    (hins : (xdpIpHashFunc env f cpu).1.inserted = true) :
    packetHandler sha256 (xdpIpHashFunc env f cpu).1.frame =
      some (.checked (digest (kernelKey ++ hashedHeader f)) (rebuiltHeader f)
        (digest (kernelKey ++ hashedHeader f) ==
          (sha256 (secretKey ++ rebuiltHeader f)).take 32)) := by
  obtain ⟨rfl, hproto⟩ := ipv4Header_untagged hpos hv
  obtain ⟨-, h5, hfit⟩ := ipv4Header_bounds hpos
  obtain ⟨check, hash, hdigest, hframe⟩ := inserted_frame hpos hins
  have hhash : hash.toList = digest (kernelKey ++ hashedHeader f) := by
    have hd := hashFrame_digest f cpu.maps hok
    have hmin : min 20 (ihl f 14 * 4) = 20 := by omega
    rw [show (hashFrame env f cpu.maps).digest = some hash from hdigest, packetDigest, hpos] at hd
    simp only [Option.map_some, Option.some.injEq, hmin] at hd
    rw [hd, drop_take_header (by rw [store16_length]; omega)]
    rfl
  rw [hframe, packetHandler_tagged sha256 check hash (by omega) hproto, hhash]

/-- The bytes that `xdp_ip_hash_func` passes to `compute_keyed_hash` for a header at offset 14: the
whole header with its checksum field cleared. -/
def passedHeader (f : Frame) : List UInt8 := ((store16 f 24 0).drop 14).take (ihl f 14 * 4)

theorem setIhl_five {b : UInt8} (h : b.toNat % 16 = 5) : (b &&& 0xF0) ||| 5 = b := by
  revert b
  decide +kernel

/-- For a header of twenty bytes the verifier rebuilds exactly what the kernel program hashed. -/
theorem rebuiltHeader_eq_passedHeader {f : Frame} (h : 34 ≤ f.length) (h5 : ihl f 14 = 5) :
    rebuiltHeader f = passedHeader f := by
  have hkeep : byteAt (store16 f 24 0) 14 = byteAt f 14 :=
    byteAt_store16_ne f 0 (by omega) (by omega)
  have hhead : hashedHeader f = byteAt f 14 :: (hashedHeader f).tail := by
    rw [← hkeep]
    rfl
  have hset : rebuiltHeader f = hashedHeader f := by
    rw [rebuiltHeader, setIhl_five h5, hhead]
    rfl
  rw [hset, passedHeader, h5, hashedHeader, drop_take_header (by rw [store16_length]; exact h)]

/-- The verifier undoes the edit of the tagger: for every frame without VLAN tag and with a header
of twenty bytes, every inserted hash and every run of the program. -/
theorem packetHandler_restores (sha256 : List UInt8 → List UInt8) {f : Frame} {pos : ℕ}
    (hpos : ipv4Header f = some pos) (hv : protoIsVlan (load16 f 12) = false)
    (h5 : ihl f pos = 5) :
    (∀ adjust hash f', addIpOptionHash adjust (store16 f 24 0) hash = (0, f') →
      ∃ same, packetHandler sha256 f' = some (.checked hash.toList (passedHeader f) same)) ∧
    ∀ env cpu, (xdpIpHashFunc env f cpu).1.inserted = true →
      ∃ hash same, (xdpIpHashFunc env f cpu).1.digest = some hash ∧
        packetHandler sha256 (xdpIpHashFunc env f cpu).1.frame =
          some (.checked hash.toList (passedHeader f) same) := by
  obtain ⟨rfl, hproto⟩ := ipv4Header_untagged hpos hv
  obtain ⟨-, -, hfit⟩ := ipv4Header_bounds hpos
  have hlen : 34 ≤ f.length := by omega
  have hread := fun check hash => packetHandler_tagged sha256 check hash hlen hproto
  rw [rebuiltHeader_eq_passedHeader hlen h5] at hread
  refine ⟨fun adjust hash f' hret => ?_, fun env cpu hins => ?_⟩
  · obtain ⟨-, rfl⟩ := addIpOptionHash_eq_zero hret
    exact ⟨_, hread _ hash⟩
  · obtain ⟨check, hash, hdigest, hframe⟩ := inserted_frame hpos hins
    exact ⟨hash, _, hdigest, by rw [hframe]; exact hread check hash⟩

theorem packetHandler_restores_sample : ∃ hash same,
    (xdpIpHashFunc headRoom sampleFrame .zero).1.digest = some hash ∧
      packetHandler kernelSha256 (xdpIpHashFunc headRoom sampleFrame .zero).1.frame =
        some (.checked hash.toList (passedHeader sampleFrame) same) :=
  (packetHandler_restores kernelSha256 sampleFrame_ipv4Header (by decide) (by decide)).2 _ _
    (inserted_headRoom sampleFrame_ipv4Header _)

theorem digest_length (m : List UInt8) : (digest m).length = 32 := by
  simp [digest, Chain.bytes]

theorem keys_differ (f : Frame) : kernelKey ++ hashedHeader f ≠ secretKey ++ rebuiltHeader f := by
  intro h
  have hkey := (List.append_inj h rfl).1
  exact absurd hkey (by decide)

/-- A frame tagged by the kernel program is accepted by the verifier exactly when SHA-256 sends
the two byte strings that the programs hash, which are always different, to the same digest. -/
theorem hashMatch_iff (sha256 : List UInt8 → List UInt8)
    (hsha : ∀ m, m.length < 2 ^ 32 → sha256 m = kernelSha256 m) {env : Helpers} {f : Frame}
    {cpu : Cpu} {pos : ℕ} (hok : env.lookups = .ok) (hpos : ipv4Header f = some pos)
    (hv : protoIsVlan (load16 f 12) = false)
    (hins : (xdpIpHashFunc env f cpu).1.inserted = true) :
    kernelKey ++ hashedHeader f ≠ secretKey ++ rebuiltHeader f ∧
      (HashMatch (packetHandler sha256 (xdpIpHashFunc env f cpu).1.frame) ↔
        digest (kernelKey ++ hashedHeader f) = digest (secretKey ++ rebuiltHeader f)) := by
  have hlen : (secretKey ++ rebuiltHeader f).length = 36 := by
    simp [secretKey, rebuiltHeader, hashedHeader, plainHeader]
  have hdigest : sha256 (secretKey ++ rebuiltHeader f) = digest (secretKey ++ rebuiltHeader f) := by
    rw [hsha _ (by omega), kernelSha256_eq (by omega)]
  refine ⟨keys_differ f, ?_⟩
  rw [HashMatch, packetHandler_inserted sha256 hok hpos hv hins, hdigest,
    List.take_of_length_le (by rw [digest_length])]
  simp

theorem hashMatch_iff_sample :
    HashMatch (packetHandler kernelSha256 (xdpIpHashFunc headRoom sampleFrame .zero).1.frame) ↔
      digest (kernelKey ++ hashedHeader sampleFrame) =
        digest (secretKey ++ rebuiltHeader sampleFrame) :=
  (hashMatch_iff kernelSha256 (fun _ _ => rfl) rfl sampleFrame_ipv4Header (by decide)
    (inserted_headRoom sampleFrame_ipv4Header _)).2

theorem not_hashMatch_sample :
    (xdpIpHashFunc headRoom sampleFrame .zero).1.inserted = true ∧
      ¬ HashMatch (packetHandler kernelSha256
        (xdpIpHashFunc headRoom sampleFrame .zero).1.frame) := by
  have hins := inserted_headRoom sampleFrame_ipv4Header .zero
  refine ⟨hins, ?_⟩
  have hne : digest (kernelKey ++ hashedHeader sampleFrame) ≠
      digest (secretKey ++ rebuiltHeader sampleFrame) := by
    -- with the table of the source, so that the cube roots are not computed in every round
    unfold digest absorb Sha256Spec.compress
    rw [← k_eq_roundConstants]
    decide +kernel
  rw [HashMatch, packetHandler_inserted kernelSha256 rfl sampleFrame_ipv4Header (by decide) hins,
    kernelSha256_eq (by decide), List.take_of_length_le (by rw [digest_length])]
  simp [hne]

end HashCompress.HashVerifier
