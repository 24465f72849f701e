import Mathlib

/-!
# The header parsers of `common/parsing_helpers.h`

A frame is the byte string between `data` and `data_end`; a pointer into it is an offset.
Multi-byte fields are loaded in the little-endian order of the host, as the C code loads them,
and converted where the C code converts them.
-/
namespace HashCompress.ParsingHelpers

abbrev Frame := List UInt8

def byteAt (f : Frame) (i : ℕ) : UInt8 := f.getD i 0

@[simp] theorem byteAt_cons_zero (b : UInt8) (f : Frame) : byteAt (b :: f) 0 = b := rfl

def load16 (f : Frame) (i : ℕ) : UInt16 :=
  UInt16.ofNat ((byteAt f i).toNat + 256 * (byteAt f (i + 1)).toNat)

theorem load16_toNat (f : Frame) (i : ℕ) :
    (load16 f i).toNat = (byteAt f i).toNat + 256 * (byteAt f (i + 1)).toNat := by
  have h0 := (byteAt f i).toNat_lt
  have h1 := (byteAt f (i + 1)).toNat_lt
  rw [load16, UInt16.toNat_ofNat', Nat.mod_eq_of_lt (by omega)]

theorem load16_eq {f : Frame} {i : ℕ} {x : UInt16} (h0 : byteAt f i = UInt8.ofNat x.toNat)
    (h1 : byteAt f (i + 1) = UInt8.ofNat (x.toNat / 256)) : load16 f i = x := by
  have hx := x.toNat_lt
  apply UInt16.toNat_inj.mp
  rw [load16_toNat, h0, h1, UInt8.toNat_ofNat', UInt8.toNat_ofNat']
  omega

def bpfNtohs (x : UInt16) : UInt16 := UInt16.ofNat (x.toNat % 256 * 256 + x.toNat / 256)

def bpfHtons (x : UInt16) : UInt16 := bpfNtohs x

def ethPIp : UInt16 := 0x0800
def ethPIpv6 : UInt16 := 0x86DD
def ethP8021Q : UInt16 := 0x8100
def ethP8021AD : UInt16 := 0x88A8

def protoIsVlan (hProto : UInt16) : Bool :=
  hProto == bpfHtons ethP8021Q || hProto == bpfHtons ethP8021AD

/-- What `parse_ethhdr_vlan` leaves behind: the cursor, the EtherType in network byte order and
the collected VLAN identifiers. -/
structure EthParse where
  pos : ℕ
  proto : UInt16
  vlans : List UInt16
  deriving DecidableEq

def skipVlans (f : Frame) : ℕ → EthParse → EthParse
  | 0, p => p
  | n + 1, p =>
      if protoIsVlan p.proto = false then p
      else if p.pos + 4 > f.length then p
      else skipVlans f n ⟨p.pos + 4, load16 f (p.pos + 2),
        p.vlans ++ [bpfNtohs (load16 f p.pos) &&& 0x0fff]⟩

def vlanMaxDepth : ℕ := 2

def parseEthhdrVlan (f : Frame) (pos : ℕ) : Option EthParse :=
  if pos + 14 > f.length then none
  else some (skipVlans f vlanMaxDepth ⟨pos + 14, load16 f (pos + 12), []⟩)

def parseEthhdr (f : Frame) (pos : ℕ) : Option (ℕ × UInt16) :=
  (parseEthhdrVlan f pos).map fun p => (p.pos, p.proto)

def ihl (f : Frame) (iph : ℕ) : ℕ := (byteAt f iph).toNat % 16

/-- The cursor behind the header and the protocol field. -/
def parseIphdr (f : Frame) (pos : ℕ) : Option (ℕ × UInt8) :=
  if pos + 20 > f.length then none
  else
    let hdrsize := ihl f pos * 4
    if hdrsize < 20 then none
    else if pos + hdrsize > f.length then none
    else some (pos + hdrsize, byteAt f (pos + 9))

/-- The cursor behind the header and the next-header field. -/
def parseIp6hdr (f : Frame) (pos : ℕ) : Option (ℕ × UInt8) :=
  if pos + 40 > f.length then none else some (pos + 40, byteAt f (pos + 6))

/-- The cursor behind the header and the length of the payload. -/
def parseUdphdr (f : Frame) (pos : ℕ) : Option (ℕ × ℕ) :=
  if pos + 8 > f.length then none
  else
    let len := (bpfNtohs (load16 f (pos + 4))).toNat
    if len < 8 then none else some (pos + 8, len - 8)

/-- The cursor behind the header and the length of the header. -/
def parseTcphdr (f : Frame) (pos : ℕ) : Option (ℕ × ℕ) :=
  if pos + 20 > f.length then none
  else
    let len := (byteAt f (pos + 12)).toNat / 16 * 4
    if len < 20 then none
    else if pos + len > f.length then none
    else some (pos + len, len)

/-- Offset of the IPv4 header of a frame that both helpers accept. -/
def ipv4Header (f : Frame) : Option ℕ := do
  let (pos, proto) ← parseEthhdr f 0
  if proto = bpfHtons ethPIp then
    let _ ← parseIphdr f pos
    some pos
  else none

theorem skipVlans_pos_ge (f : Frame) (n : ℕ) (p : EthParse) : p.pos ≤ (skipVlans f n p).pos := by
  induction n generalizing p with
  | zero => exact le_rfl
  | succ n ih =>
    simp only [skipVlans]
    split_ifs
    · exact le_rfl
    · exact le_rfl
    · exact (Nat.le_add_right p.pos 4).trans (ih ⟨p.pos + 4, _, _⟩)

/-- Everything the program relies on about an accepted frame. -/
theorem ipv4Header_bounds {f : Frame} {pos : ℕ} (h : ipv4Header f = some pos) :
    14 ≤ pos ∧ 5 ≤ ihl f pos ∧ pos + ihl f pos * 4 ≤ f.length := by
  simp only [ipv4Header, parseEthhdr, parseEthhdrVlan, parseIphdr, Option.bind_eq_bind] at h
  split_ifs at h with h14
  · simp at h
  · simp only [Option.map_some, Option.bind_some] at h
    split_ifs at h with hp h20 hsize hfit
    · simp at h
    · simp at h
    · simp at h
    · simp only [Option.bind_some, Option.some.injEq] at h
      subst h
      have := skipVlans_pos_ge f vlanMaxDepth ⟨0 + 14, load16 f (0 + 12), []⟩
      simp only at this
      omega

theorem ipv4Header_parse {f : Frame} {pos : ℕ} (h : ipv4Header f = some pos) :
    parseEthhdr f 0 = some (pos, bpfHtons ethPIp) ∧
      parseIphdr f pos = some (pos + ihl f pos * 4, byteAt f (pos + 9)) := by
  have hb := ipv4Header_bounds h
  constructor
  · simp only [ipv4Header, Option.bind_eq_bind] at h
    cases he : parseEthhdr f 0 with
    | none => simp [he] at h
    | some p =>
      simp only [he, Option.bind_some] at h
      split_ifs at h with hp
      obtain ⟨q, hq, hpos⟩ := Option.bind_eq_some_iff.mp h
      rw [← Option.some.inj hpos, ← hp]
  · simp only [parseIphdr]
    rw [if_neg (by omega), if_neg (by omega), if_neg (by omega)]

end HashCompress.ParsingHelpers
