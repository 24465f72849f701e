import HashCompress.XdpProgram

/-! When the inserted option leaves the rest of the packet as it was. -/
namespace HashCompress.PacketPreservation
open Sha256Kernel ParsingHelpers OptionInsert XdpProgram

def be16 (f : Frame) (i : ℕ) : ℕ := 256 * (byteAt f i).toNat + (byteAt f (i + 1)).toNat

/-- An IPv4 packet as the two parsing helpers see it. `link` is the Ethernet header with its
VLAN tags; the checksum is left out. -/
structure Ipv4View where
  link : List UInt8
  version : ℕ
  headerLen : ℕ
  tos : UInt8
  totLen : ℕ
  id : ℕ
  fragOff : ℕ
  ttl : UInt8
  protocol : UInt8
  saddr : List UInt8
  daddr : List UInt8
  options : List UInt8
  payload : List UInt8
  deriving DecidableEq

def viewAt (f : Frame) (pos : ℕ) : Ipv4View where
  link := f.take pos
  version := (byteAt f pos).toNat / 16
  headerLen := ihl f pos * 4
  tos := byteAt f (pos + 1)
  totLen := be16 f (pos + 2)
  id := be16 f (pos + 4)
  fragOff := be16 f (pos + 6)
  ttl := byteAt f (pos + 8)
  protocol := byteAt f (pos + 9)
  saddr := (List.range 4).map fun i => byteAt f (pos + 12 + i)
  daddr := (List.range 4).map fun i => byteAt f (pos + 16 + i)
  options := (f.drop (pos + 20)).take (ihl f pos * 4 - 20)
  payload := f.drop (pos + ihl f pos * 4)

def ipv4View (f : Frame) : Option Ipv4View := (ipv4Header f).map (viewAt f)

/-- `v'` is `v` with 36 bytes of options put before its own options. -/
structure Extends (v v' : Ipv4View) : Prop where
  link : v'.link = v.link
  version : v'.version = v.version
  headerLen : v'.headerLen = v.headerLen + 36
  tos : v'.tos = v.tos
  totLen : v'.totLen = v.totLen + 36
  id : v'.id = v.id
  fragOff : v'.fragOff = v.fragOff
  ttl : v'.ttl = v.ttl
  protocol : v'.protocol = v.protocol
  saddr : v'.saddr = v.saddr
  daddr : v'.daddr = v.daddr
  options : ∃ added, added.length = 36 ∧ v'.options = added ++ v.options
  payload : v'.payload = v.payload

def Preserves (f f' : Frame) : Prop :=
  ∃ v v', ipv4View f = some v ∧ ipv4View f' = some v' ∧ Extends v v'

theorem parseEthhdr_eq {f : Frame} (h : 14 ≤ f.length) :
    parseEthhdr f 0 = some ((skipVlans f 2 ⟨14, load16 f 12, []⟩).pos,
      (skipVlans f 2 ⟨14, load16 f 12, []⟩).proto) := by
  rw [parseEthhdr, parseEthhdrVlan, if_neg (by omega)]
  rfl

theorem ipv4Header_untagged {f : Frame} {pos : ℕ} (h : ipv4Header f = some pos)
    (hv : protoIsVlan (load16 f 12) = false) : pos = 14 ∧ load16 f 12 = bpfHtons ethPIp := by
  have hb := ipv4Header_bounds h
  have hp := (ipv4Header_parse h).1
  rw [parseEthhdr_eq (by omega)] at hp
  simp only [skipVlans, hv, if_true, Option.some.injEq, Prod.mk.injEq] at hp
  exact ⟨hp.1.symm, hp.2⟩

theorem ipv4Header_tagged {f : Frame} {pos : ℕ} (h : ipv4Header f = some pos)
    (hv : protoIsVlan (load16 f 12) = true) :
    18 ≤ pos ∧ (load16 f 16 = bpfHtons ethPIp ∨ protoIsVlan (load16 f 16) = true) := by
  have hb := ipv4Header_bounds h
  have hp := (ipv4Header_parse h).1
  have hip : protoIsVlan (bpfHtons ethPIp) = false := by decide
  rw [parseEthhdr_eq (by omega)] at hp
  simp only [skipVlans, hv, Bool.true_eq_false, if_false, Option.some.injEq, Prod.mk.injEq,
    Nat.reduceAdd] at hp
  split_ifs at hp with h18 hv1 h22
  · rw [show load16 f 12 = bpfHtons ethPIp from hp.2, hip] at hv
    exact absurd hv (by decide)
  · exact ⟨hp.1.le, Or.inl hp.2⟩
  · exact ⟨hp.1.le, Or.inr (by simpa using hv1)⟩
  · exact ⟨by simp only at hp; omega, Or.inr (by simpa using hv1)⟩

theorem byteAt_store16_ne (f : Frame) {i j : ℕ} (x : UInt16) (h : i ≠ j) (h' : i ≠ j + 1) :
    byteAt (store16 f j x) i = byteAt f i := by
  simp only [byteAt, store16, List.getD_eq_getElem?_getD]
  rw [List.getElem?_set_ne (Ne.symm h'), List.getElem?_set_ne (Ne.symm h)]

theorem byteAt_append_left {e : Frame} (l : Frame) {i : ℕ} (h : i < e.length) :
    byteAt (e ++ l) i = byteAt e i := List.getD_append _ _ _ _ h

theorem byteAt_take (f : Frame) {n i : ℕ} (h : i < n) : byteAt (f.take n) i = byteAt f i := by
  simp only [byteAt, List.getD_eq_getElem?_getD, List.getElem?_take, if_pos h]

/-- The frame after the insertion, in the shape `addIpOptionHash_some` gives it. -/
def tagged (f : Frame) (check : UInt16) (hash : Vector UInt8 32) : Frame :=
  f.take 14 ++ (taggedHeader f check ++ (optionBytes hash ++ f.drop 34))

/-- A return value of zero means that the option is in. -/
theorem addIpOptionHash_eq_zero {adjust : Option (Vector UInt8 36)} {f f' : Frame}
    {hash : Vector UInt8 32} (h : addIpOptionHash adjust f hash = (0, f')) :
    34 ≤ f.length ∧ f' = tagged f (calculateIpChecksum
      (taggedHeader f 0 ++ (optionBytes hash ++ f.drop 34)) 56) hash := by
  by_cases hlen : 34 ≤ f.length
  · cases adjust with
    | none => simp [addIpOptionHash, Nat.not_lt.mpr hlen] at h
    | some room =>
      rw [addIpOptionHash_some room hash hlen] at h
      exact ⟨hlen, (congrArg Prod.snd h).symm⟩
  · simp [addIpOptionHash, Nat.lt_of_not_le hlen] at h

section Tagged

variable {f : Frame} (check : UInt16) (hash : Vector UInt8 32) (h : 34 ≤ f.length)
include h

theorem tagged_length : (tagged f check hash).length = f.length + 36 := by
  simp only [tagged, List.length_append, List.length_take, taggedHeader_length,
    optionBytes_length, List.length_drop]
  omega

theorem byteAt_tagged_link {i : ℕ} (hi : i < 14) : byteAt (tagged f check hash) i = byteAt f i := by
  rw [tagged, byteAt_append_left _ (by rw [List.length_take]; omega), byteAt_take f hi]

theorem byteAt_tagged_header {i : ℕ} (hi : i < 20) :
    byteAt (tagged f check hash) (14 + i) = byteAt (taggedHeader f check) i := by
  rw [tagged, byteAt_append_right (by rw [List.length_take]; omega),
    byteAt_append_left _ (by rw [taggedHeader_length]; exact hi)]

/-- Total length and checksum apart, the header bytes behind the first are copied. -/
theorem byteAt_tagged_same {j : ℕ} (h14 : 14 < j) (h34 : j < 34) (hj : j ∉ [16, 17, 24, 25]) :
    byteAt (tagged f check hash) j = byteAt f j := by
  simp only [List.mem_cons, List.not_mem_nil, or_false, not_or] at hj
  obtain ⟨i, rfl⟩ := Nat.exists_eq_add_of_le h14.le
  rw [byteAt_tagged_header check hash h (by omega)]
  have hi : i < 20 := by omega
  interval_cases i <;> first | rfl | omega

theorem drop_tagged : (tagged f check hash).drop 34 = optionBytes hash ++ f.drop 34 := by
  have hpre : (f.take 14 ++ taggedHeader f check).length = 34 := by
    rw [List.length_append, List.length_take, taggedHeader_length]
    omega
  rw [tagged, ← List.append_assoc, List.drop_left' hpre]

/-- The new header: the updated fields and the option. -/
theorem header_tagged :
    ((tagged f check hash).drop 14).take 56 = taggedHeader f check ++ optionBytes hash := by
  have h14 : (f.take 14).length = 14 := by
    rw [List.length_take]
    omega
  have h56 : (taggedHeader f check ++ optionBytes hash).length = 56 := by simp
  rw [tagged, List.drop_left' h14, ← List.append_assoc, List.take_left' h56]

theorem load16_tagged_link : load16 (tagged f check hash) 12 = load16 f 12 := by
  rw [load16, load16, byteAt_tagged_link check hash h (by omega),
    byteAt_tagged_link check hash h (by omega)]

theorem load16_tagged_totLen :
    load16 (tagged f check hash) 16 = bpfHtons (bpfNtohs (load16 f 16) + 36) := by
  generalize htot : bpfHtons (bpfNtohs (load16 f 16) + 36) = tot
  have htl := tot.toNat_lt
  have h16 : byteAt (tagged f check hash) 16 = UInt8.ofNat tot.toNat := by
    rw [← htot]
    exact byteAt_tagged_header check hash h (i := 2) (by omega)
  have h17 : byteAt (tagged f check hash) (16 + 1) = UInt8.ofNat (tot.toNat / 256) := by
    rw [← htot]
    exact byteAt_tagged_header check hash h (i := 3) (by omega)
  apply UInt16.toNat_inj.mp
  rw [load16, h16, h17, UInt16.toNat_ofNat', UInt8.toNat_ofNat', UInt8.toNat_ofNat']
  omega

theorem ihl_tagged : ihl (tagged f check hash) 14 = 14 := by
  have h14 := byteAt_tagged_header check hash h (i := 0) (by omega)
  rw [ihl, h14]
  exact setIhl_low (byteAt f 14)

/-- A tagged frame whose EtherType was a VLAN tag has 36 added to the next EtherType, so the
helpers no longer see an IPv4 packet. -/
theorem ipv4Header_tagged_vlan (hv : protoIsVlan (load16 f 12) = true)
    (hnext : load16 f 16 = bpfHtons ethPIp ∨ protoIsVlan (load16 f 16) = true) :
    ipv4Header (tagged f check hash) = none := by
  have hlen := tagged_length check hash h
  have htot : protoIsVlan (bpfHtons (bpfNtohs (load16 f 16) + 36)) = false ∧
      bpfHtons (bpfNtohs (load16 f 16) + 36) ≠ bpfHtons ethPIp := by
    rcases hnext with he | hvlan
    · rw [he]
      decide
    · simp only [protoIsVlan, Bool.or_eq_true, beq_iff_eq] at hvlan
      rcases hvlan with he | he
      · rw [he]
        decide
      · rw [he]
        decide
  have heth : parseEthhdr (tagged f check hash) 0 =
      some (18, bpfHtons (bpfNtohs (load16 f 16) + 36)) := by
    rw [parseEthhdr_eq (by omega), load16_tagged_link check hash h]
    simp only [skipVlans, hv, Bool.true_eq_false, if_false, Nat.reduceAdd,
      load16_tagged_totLen check hash h, htot.1, if_true]
    rw [if_neg (by omega)]
  simp [ipv4Header, heth, htot.2]

theorem ipv4Header_tagged_plain (hp : load16 f 12 = bpfHtons ethPIp) :
    ipv4Header (tagged f check hash) = some 14 := by
  have hlen := tagged_length check hash h
  have hv : protoIsVlan (bpfHtons ethPIp) = false := by decide
  have heth : parseEthhdr (tagged f check hash) 0 = some (14, bpfHtons ethPIp) := by
    rw [parseEthhdr_eq (by omega), load16_tagged_link check hash h, hp]
    simp [skipVlans, hv]
  simp only [ipv4Header, heth, Option.bind_eq_bind, Option.bind_some, if_true, parseIphdr,
    ihl_tagged check hash h]
  rw [if_neg (by omega), if_neg (by omega), if_neg (by omega)]
  rfl

end Tagged

theorem bpfNtohs_toNat (x : UInt16) :
    (bpfNtohs x).toNat = x.toNat % 256 * 256 + x.toNat / 256 := by
  have hx := x.toNat_lt
  rw [bpfNtohs, UInt16.toNat_ofNat', Nat.mod_eq_of_lt (by omega)]

theorem bpfNtohs_load16 (f : Frame) (i : ℕ) : (bpfNtohs (load16 f i)).toNat = be16 f i := by
  have h0 := (byteAt f i).toNat_lt
  have h1 := (byteAt f (i + 1)).toNat_lt
  rw [bpfNtohs_toNat, load16_toNat, be16]
  omega

theorem bpfNtohs_bpfHtons (x : UInt16) : bpfNtohs (bpfHtons x) = x := by
  have hx := x.toNat_lt
  apply UInt16.toNat_inj.mp
  rw [bpfHtons, bpfNtohs_toNat, bpfNtohs_toNat]
  omega

theorem be16_tagged {f : Frame} (check : UInt16) (hash : Vector UInt8 32) (h : 34 ≤ f.length) :
    be16 (tagged f check hash) 16 = (be16 f 16 + 36) % 65536 := by
  rw [← bpfNtohs_load16, load16_tagged_totLen check hash h, bpfNtohs_bpfHtons, UInt16.toNat_add,
    bpfNtohs_load16]
  rfl

/-- Clearing the checksum of an untagged packet and inserting the option keeps everything, if the
header has no options of its own and the total length does not wrap. -/
theorem extends_tagged {f : Frame} (check : UInt16) (hash : Vector UInt8 32) (h : 34 ≤ f.length)
    (hihl : ihl f 14 = 5) (htot : be16 f 16 + 36 < 65536) :
    Extends (viewAt f 14) (viewAt (tagged (store16 f 24 0) check hash) 14) := by
  generalize hf₀ : store16 f 24 0 = f₀
  have hlen : 34 ≤ f₀.length := by rw [← hf₀, store16_length]; exact h
  have hkeep : ∀ i, i ≠ 24 → i ≠ 25 → byteAt f₀ i = byteAt f i := by
    intro i h24 h25
    rw [← hf₀, byteAt_store16_ne f 0 h24 h25]
  have hsame : ∀ j, 14 < j → j < 34 → j ∉ [16, 17, 24, 25] →
      byteAt (tagged f₀ check hash) j = byteAt f j := by
    intro j h14 h34 hj
    have hsame₀ := byteAt_tagged_same check hash hlen h14 h34 hj
    simp only [List.mem_cons, List.not_mem_nil, or_false, not_or] at hj
    rw [hsame₀, hkeep j hj.2.2.1 hj.2.2.2]
  have hlink : f₀.take 14 = f.take 14 := by
    rw [← hf₀, store16, List.take_set_of_le (by omega), List.take_set_of_le (by omega)]
  have hrest : f₀.drop 34 = f.drop 34 := by
    rw [← hf₀, store16, List.drop_set_of_lt (by omega), List.drop_set_of_lt (by omega)]
  have htail := drop_tagged check hash hlen
  have hopt : (optionBytes hash).length = 36 := optionBytes_length hash
  exact {
    link := by
      change (tagged f₀ check hash).take 14 = f.take 14
      rw [tagged, List.take_left' (by rw [List.length_take]; omega), hlink]
    version := by
      change (byteAt (tagged f₀ check hash) 14).toNat / 16 = (byteAt f 14).toNat / 16
      rw [byteAt_tagged_header check hash hlen (i := 0) (by omega), ← hkeep 14 (by omega) (by omega)]
      exact setIhl_high (byteAt f₀ 14)
    headerLen := by
      change ihl (tagged f₀ check hash) 14 * 4 = ihl f 14 * 4 + 36
      rw [ihl_tagged check hash hlen, hihl]
    tos := hsame 15 (by omega) (by omega) (by decide)
    totLen := by
      change be16 (tagged f₀ check hash) 16 = be16 f 16 + 36
      rw [be16_tagged check hash hlen, be16, hkeep 16 (by omega) (by omega),
        hkeep 17 (by omega) (by omega)]
      exact Nat.mod_eq_of_lt htot
    id := by
      simp only [viewAt, be16, Nat.reduceAdd, hsame 18 (by omega) (by omega) (by decide),
        hsame 19 (by omega) (by omega) (by decide)]
    fragOff := by
      simp only [viewAt, be16, Nat.reduceAdd, hsame 20 (by omega) (by omega) (by decide),
        hsame 21 (by omega) (by omega) (by decide)]
    ttl := hsame 22 (by omega) (by omega) (by decide)
    protocol := hsame 23 (by omega) (by omega) (by decide)
    saddr := by
      simp only [viewAt]
      apply List.map_congr_left
      intro i hi
      have hi4 := List.mem_range.mp hi
      exact hsame _ (by omega) (by omega) (by simp; omega)
    daddr := by
      simp only [viewAt]
      apply List.map_congr_left
      intro i hi
      have hi4 := List.mem_range.mp hi
      exact hsame _ (by omega) (by omega) (by simp; omega)
    options := by
      refine ⟨optionBytes hash, hopt, ?_⟩
      change ((tagged f₀ check hash).drop 34).take (ihl (tagged f₀ check hash) 14 * 4 - 20) =
        optionBytes hash ++ (f.drop 34).take (ihl f 14 * 4 - 20)
      rw [htail, ihl_tagged check hash hlen, hihl, List.take_left' hopt]
      simp
    payload := by
      change (tagged f₀ check hash).drop (14 + ihl (tagged f₀ check hash) 14 * 4) =
        f.drop (14 + ihl f 14 * 4)
      rw [ihl_tagged check hash hlen, hihl, show 14 + 14 * 4 = 34 + 36 from rfl, ← List.drop_drop,
        htail, List.drop_left' hopt, hrest] }

theorem inserted_frame {env : Helpers} {f : Frame} {cpu : Cpu} {pos : ℕ}
    (hpos : ipv4Header f = some pos) (hins : (xdpIpHashFunc env f cpu).1.inserted = true) :
    ∃ check hash, (xdpIpHashFunc env f cpu).1.digest = some hash ∧
      (xdpIpHashFunc env f cpu).1.frame = tagged (store16 f (pos + 10) 0) check hash := by
  have hb := ipv4Header_bounds hpos
  simp only [xdpIpHashFunc, hashFrame_accepted env cpu.maps hpos] at hins ⊢
  obtain ⟨-, hdigest, hiff, -, hset⟩ := tagFrame_outcome env cpu.maps hpos
  obtain ⟨room, hroom⟩ := Option.ne_none_iff_exists'.mp (hiff.mp hins).2
  rw [hset hins, hdigest (hiff.mp hins).1, hroom,
    addIpOptionHash_some room _ (by rw [store16_length]; omega)]
  exact ⟨_, _, rfl, rfl⟩

theorem load16_store16_before (f : Frame) {i j : ℕ} (x : UInt16) (h : i + 1 < j) :
    load16 (store16 f j x) i = load16 f i := by
  rw [load16, load16, byteAt_store16_ne f x (by omega) (by omega),
    byteAt_store16_ne f x (by omega) (by omega)]

theorem preserves_tagged_vlan {f : Frame} {pos : ℕ} (check : UInt16) (hash : Vector UInt8 32)
    (hpos : ipv4Header f = some pos) (hv : protoIsVlan (load16 f 12) = true) :
    ¬ Preserves f (tagged (store16 f (pos + 10) 0) check hash) := by
  have hb := ipv4Header_bounds hpos
  obtain ⟨h18, hnext⟩ := ipv4Header_tagged hpos hv
  have hnone := ipv4Header_tagged_vlan (f := store16 f (pos + 10) 0) check hash
    (by rw [store16_length]; omega) (by rw [load16_store16_before f 0 (by omega), hv])
    (by rw [load16_store16_before f 0 (by omega)]; exact hnext)
  simp [Preserves, ipv4View, hnone]

theorem preserves_tagged_plain {f : Frame} (check : UInt16) (hash : Vector UInt8 32)
    (hpos : ipv4Header f = some 14) (hproto : load16 f 12 = bpfHtons ethPIp) :
    Preserves f (tagged (store16 f 24 0) check hash) ↔
      ihl f 14 = 5 ∧ be16 f 16 + 36 < 65536 := by
  have hb := ipv4Header_bounds hpos
  have hlen : 34 ≤ (store16 f 24 0).length := by rw [store16_length]; omega
  have hview := ipv4Header_tagged_plain check hash hlen
    (by rw [load16_store16_before f 0 (by omega), hproto])
  simp only [Preserves, ipv4View, hpos, hview, Option.map_some, Option.some.injEq]
  constructor
  · rintro ⟨v, v', rfl, rfl, hext⟩
    have hheader : ihl (tagged (store16 f 24 0) check hash) 14 * 4 = ihl f 14 * 4 + 36 :=
      hext.headerLen
    have htotal : be16 (tagged (store16 f 24 0) check hash) 16 = be16 f 16 + 36 := hext.totLen
    have hbe : be16 (store16 f 24 0) 16 = be16 f 16 := by
      rw [be16, be16, byteAt_store16_ne f 0 (by omega) (by omega),
        byteAt_store16_ne f 0 (by omega) (by omega)]
    rw [ihl_tagged check hash hlen] at hheader
    rw [be16_tagged check hash hlen, hbe] at htotal
    omega
  · rintro ⟨hihl, htot⟩
    exact ⟨_, _, rfl, rfl, extends_tagged check hash (by omega) hihl htot⟩

/-- An insertion preserves the packet exactly when the frame has no VLAN tag, its header has no
options of its own and its total length leaves room for 36 more bytes. -/
theorem preserves_iff {env : Helpers} {f : Frame} {cpu : Cpu} {pos : ℕ}
    (hpos : ipv4Header f = some pos) (hins : (xdpIpHashFunc env f cpu).1.inserted = true) :
    Preserves f (xdpIpHashFunc env f cpu).1.frame ↔
      protoIsVlan (load16 f 12) = false ∧ ihl f pos = 5 ∧ be16 f (pos + 2) + 36 < 65536 := by
  obtain ⟨check, hash, -, hframe⟩ := inserted_frame hpos hins
  rw [hframe]
  cases hv : protoIsVlan (load16 f 12) with
  | true => simp [preserves_tagged_vlan check hash hpos hv]
  | false =>
    obtain ⟨rfl, hproto⟩ := ipv4Header_untagged hpos hv
    simpa using preserves_tagged_plain check hash hpos hproto

theorem inserted_headRoom {f : Frame} {pos : ℕ} (hpos : ipv4Header f = some pos) (cpu : Cpu) :
    (xdpIpHashFunc headRoom f cpu).1.inserted = true := by
  simp only [xdpIpHashFunc, hashFrame_accepted headRoom _ hpos]
  exact (tagFrame_outcome headRoom _ hpos).2.2.1.mpr ⟨rfl, by simp [headRoom]⟩

theorem sampleFrame_ipv4Header : ipv4Header sampleFrame = some 14 := by decide

theorem preserves_iff_sample :
    Preserves sampleFrame (xdpIpHashFunc headRoom sampleFrame .zero).1.frame :=
  (preserves_iff sampleFrame_ipv4Header (inserted_headRoom sampleFrame_ipv4Header _)).mpr
    (by decide)

/-- `sampleFrame` with four bytes of options, three of them NOP. -/
def optionFrame : Frame :=
  [0, 1, 2, 3, 4, 5, 6, 7, 8, 9, 10, 11, 0x08, 0x00,
    0x46, 0, 0, 24, 0, 0, 0, 0, 64, 17, 0x12, 0x34, 10, 0, 0, 1, 10, 0, 0, 2, 1, 1, 1, 0]

theorem not_preserves_optionFrame : ipv4Header optionFrame = some 14 ∧
    (xdpIpHashFunc headRoom optionFrame .zero).1.inserted = true ∧
    ¬ Preserves optionFrame (xdpIpHashFunc headRoom optionFrame .zero).1.frame := by
  have hip : ipv4Header optionFrame = some 14 := by decide
  have hins := inserted_headRoom hip .zero
  obtain ⟨check, hash, -, hframe⟩ := inserted_frame hip hins
  refine ⟨hip, hins, ?_⟩
  rw [hframe, preserves_tagged_plain check hash hip (by decide)]
  decide

end HashCompress.PacketPreservation
