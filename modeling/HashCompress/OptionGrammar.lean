import HashCompress.OptionScans

/-! The option grammar of the IPv4 header, and what the first scan of `packet_handler` makes of an
area that follows it. -/
namespace HashCompress.OptionGrammar
open ParsingHelpers OptionInsert HashVerifier OptionScans

/-- One option: a NOP, or a type, a length byte that counts the whole option, and a value. -/
inductive IpOption where
  | nop
  | tlv (type : UInt8) (value : List UInt8) (htype : type ≠ 0 ∧ type ≠ 1)
      (hlen : value.length + 2 < 256)

def IpOption.bytes : IpOption → List UInt8
  | .nop => [1]
  | .tlv type value _ _ => type :: UInt8.ofNat (value.length + 2) :: value

/-- Type 25 and length 36. -/
def IpOption.isHash : IpOption → Bool
  | .nop => false
  | .tlv type value _ _ => type == 25 && value.length + 2 == 36

def optionsBytes (options : List IpOption) : List UInt8 := options.flatMap IpOption.bytes

/-- The end-of-options byte with the padding behind it, where the options do not fill the area. -/
def endBytes : Option (List UInt8) → List UInt8
  | none => []
  | some padding => 0 :: padding

def areaBytes (options : List IpOption) (ending : Option (List UInt8)) : List UInt8 :=
  optionsBytes options ++ endBytes ending

/-- Where the first hash option starts, counted from `start` on. -/
def hashOffset (start : ℕ) (options : List IpOption) : Option ℕ :=
  (options.findIdx? IpOption.isHash).map fun i => start + (optionsBytes (options.take i)).length

lemma hashOffset_cons_hash (start : ℕ) {option : IpOption} (h : option.isHash = true)
    (options : List IpOption) : hashOffset start (option :: options) = some start := by
  rw [hashOffset, List.findIdx?_cons, if_pos h]
  rfl

lemma hashOffset_cons_skip (start : ℕ) {option : IpOption} (h : option.isHash = false)
    (options : List IpOption) :
    hashOffset start (option :: options) = hashOffset (start + option.bytes.length) options := by
  rw [hashOffset, List.findIdx?_cons, h, if_neg Bool.false_ne_true, Option.map_map, hashOffset]
  congr 1
  funext i
  simp only [Function.comp_apply, List.take_succ_cons, optionsBytes, List.flatMap_cons,
    List.length_append]
  omega

lemma areaBytes_cons (option : IpOption) (options : List IpOption) (ending : Option (List UInt8)) :
    areaBytes (option :: options) ending = option.bytes ++ areaBytes options ending := by
  rw [areaBytes, optionsBytes, List.flatMap_cons, List.append_assoc]
  rfl

lemma byteAt_front (front : List UInt8) (b : UInt8) (rest : List UInt8) :
    byteAt (front ++ b :: rest) front.length = b := byteAt_append_right rfl (b :: rest) 0

lemma byteAt_front_succ (front : List UInt8) (a b : UInt8) (rest : List UInt8) :
    byteAt (front ++ a :: b :: rest) (front.length + 1) = b := byteAt_append_right rfl (a :: b :: rest) 1

/-! ### One iteration of the scan -/

lemma findHashOption_end (front : List UInt8) (ending : Option (List UInt8)) (n : ℕ) :
    findHashOption (front ++ endBytes ending) n front.length = none := by
  cases n with
  | zero => rfl
  | succ n =>
    unfold findHashOption
    cases ending with
    | none => rw [endBytes, List.append_nil, if_neg (lt_irrefl _)]
    | some padding =>
      rw [endBytes, byteAt_front, if_pos (by simp), if_pos rfl]

lemma findHashOption_nop (front rest : List UInt8) (n : ℕ) :
    findHashOption (front ++ 1 :: rest) (n + 1) front.length =
      findHashOption (front ++ 1 :: rest) n (front.length + 1) := by
  rw [findHashOption, byteAt_front, if_pos (by simp), if_neg (by decide), if_pos rfl]

lemma isHashOption_tlv (front rest : List UInt8) {type : UInt8} {value : List UInt8}
    (htype : type ≠ 0 ∧ type ≠ 1) (hlen : value.length + 2 < 256) :
    isHashOption (front ++ (IpOption.tlv type value htype hlen).bytes ++ rest) front.length =
      (IpOption.tlv type value htype hlen).isHash := by
  rw [Bool.eq_iff_iff, isHashOption_iff, IpOption.bytes, List.append_assoc, List.cons_append,
    List.cons_append, byteAt_front, byteAt_front_succ, IpOption.isHash, Bool.and_eq_true, beq_iff_eq,
    beq_iff_eq, ← UInt8.toNat_inj (a := UInt8.ofNat _), UInt8.toNat_ofNat', Nat.mod_eq_of_lt hlen]
  simp only [List.length_append, List.length_cons, UInt8.reduceToNat]
  constructor
  · rintro ⟨h25, h36, -⟩
    exact ⟨h25, h36⟩
  · rintro ⟨h25, h36⟩
    exact ⟨h25, h36, by omega⟩

lemma optionStep_tlv (front rest : List UInt8) {type : UInt8} {value : List UInt8}
    (htype : type ≠ 0 ∧ type ≠ 1) (hlen : value.length + 2 < 256) :
    optionStep (front ++ (IpOption.tlv type value htype hlen).bytes ++ rest) front.length =
      (IpOption.tlv type value htype hlen).bytes.length := by
  have hbyte : (UInt8.ofNat (value.length + 2)).toNat = value.length + 2 := by
    rw [UInt8.toNat_ofNat', Nat.mod_eq_of_lt hlen]
  rw [optionStep, IpOption.bytes, List.append_assoc, List.cons_append, List.cons_append,
    byteAt_front_succ, if_neg ?_, hbyte]
  · rfl
  · rw [← UInt8.toNat_inj, hbyte]
    exact Nat.succ_ne_zero _

lemma findHashOption_tlv (front rest : List UInt8) {type : UInt8} {value : List UInt8}
    (htype : type ≠ 0 ∧ type ≠ 1) (hlen : value.length + 2 < 256) (n : ℕ) :
    let option := IpOption.tlv type value htype hlen
    findHashOption (front ++ option.bytes ++ rest) (n + 1) front.length =
      if option.isHash then some front.length
      else findHashOption (front ++ option.bytes ++ rest) n (front.length + option.bytes.length) := by
  intro option
  have hsize : front.length + 1 < (front ++ option.bytes ++ rest).length := by
    simp only [List.length_append, option, IpOption.bytes, List.length_cons]
    omega
  have hfirst : byteAt (front ++ option.bytes ++ rest) front.length = type := by
    rw [List.append_assoc]
    exact byteAt_front _ _ _
  rw [findHashOption, if_pos (by omega), hfirst, if_neg htype.1, if_neg htype.2,
    isHashOption_tlv front rest htype hlen, if_neg (by omega : ¬ front.length + 1 ≥ _),
    optionStep_tlv front rest htype hlen]

/-! ### The whole scan -/

/-- From the start of an option on, whatever stands before it: bytes inside a value are never looked
at, since the scan is at the start of an option again after each iteration. -/
lemma findHashOption_areaBytes (front : List UInt8) (options : List IpOption)
    (ending : Option (List UInt8)) {n : ℕ} (hn : (areaBytes options ending).length ≤ n) :
    findHashOption (front ++ areaBytes options ending) n front.length =
      hashOffset front.length options := by
  induction options generalizing front n with
  | nil => exact findHashOption_end front ending n
  | cons option options ih =>
    rw [areaBytes_cons, List.length_append] at hn
    have hnext := ih (front ++ option.bytes) (n := n - 1)
    rw [List.length_append] at hnext
    rw [areaBytes_cons, ← List.append_assoc]
    cases option with
    | nop =>
      obtain ⟨n, rfl⟩ : ∃ k, n = k + 1 := ⟨n - 1, by simp [IpOption.bytes] at hn; omega⟩
      rw [hashOffset_cons_skip _ rfl, ← hnext (by simp [IpOption.bytes] at hn; omega),
        List.append_assoc]
      exact findHashOption_nop front (areaBytes options ending) n
    | tlv type value htype hlen =>
      obtain ⟨n, rfl⟩ : ∃ k, n = k + 1 := ⟨n - 1, by simp [IpOption.bytes] at hn; omega⟩
      rw [findHashOption_tlv]
      cases hhash : (IpOption.tlv type value htype hlen).isHash with
      | true =>
        rw [hashOffset_cons_hash _ hhash]
        rfl
      | false =>
        rw [hashOffset_cons_skip _ hhash, ← hnext (by simp [IpOption.bytes] at hn; omega)]
        rfl

lemma hashOffset_append (start : ℕ) {before : List IpOption}
    (hbefore : ∀ option ∈ before, option.isHash = false) {option : IpOption}
    (hash : option.isHash = true) (after : List IpOption) :
    hashOffset start (before ++ option :: after) = some (start + (optionsBytes before).length) := by
  induction before generalizing start with
  | nil => exact hashOffset_cons_hash start hash after
  | cons other before ih =>
    rw [List.cons_append, hashOffset_cons_skip _ (hbefore other List.mem_cons_self),
      ih _ fun o ho => hbefore o (List.mem_cons_of_mem _ ho), optionsBytes, optionsBytes,
      List.flatMap_cons, List.length_append, Nat.add_assoc]

/-- The 32 bytes four bytes behind the start of a hash option are the end of its value. -/
lemma received_eq (front : List UInt8) {option : IpOption} (hash : option.isHash = true)
    (rest : List UInt8) :
    ((front ++ option.bytes ++ rest).drop (front.length + 4)).take 32 = option.bytes.drop 4 := by
  cases option with
  | nop => cases hash
  | tlv type value htype hlen =>
    rw [IpOption.isHash, Bool.and_eq_true, beq_iff_eq, beq_iff_eq] at hash
    have hbytes : (IpOption.tlv type value htype hlen).bytes.length = 36 := hash.2
    rw [← List.drop_drop, List.append_assoc, List.drop_left, List.drop_append_of_le_length (by omega)]
    apply List.take_left'
    rw [List.length_drop, hbytes]

lemma packetHandler_scan (sha256 : List UInt8 → List UInt8) {packet header : List UInt8}
    (hproto : bpfNtohs (load16 packet 12) = ethPIp) (hihl : 5 < ihl packet 14)
    (hheader : readRange packet 14 (ihl packet 14 * 4) = some header) :
    match findHashOption header header.length 20 with
    | none => packetHandler sha256 packet = some .noHash
    | some pos => ∃ data same,
        packetHandler sha256 packet =
          some (.checked ((header.drop (pos + 4)).take 32) data same) := by
  rw [packetHandler_header sha256 hproto hihl hheader]
  cases findHashOption header header.length 20 with
  | none => rfl
  | some pos => exact ⟨_, _, rfl⟩

/-- For every area of the grammar, behind any fixed header: `received_hash` is four bytes behind the
start of the first hash option, and `NULL` if there is none; so what the handler reports is the end
of that option's value, or that there is no hash. -/
theorem packetHandler_first_hashOption (fixed : Vector UInt8 20) (options : List IpOption)
    (ending : Option (List UInt8)) :
    let header := fixed.toList ++ areaBytes options ending
    (findHashOption header header.length 20).map (· + 4) =
        (options.findIdx? IpOption.isHash).map
          (fun i => 20 + (optionsBytes (options.take i)).length + 4) ∧
      ∀ (sha256 : List UInt8 → List UInt8) (packet : List UInt8),
        bpfNtohs (load16 packet 12) = ethPIp → 5 < ihl packet 14 →
        readRange packet 14 (ihl packet 14 * 4) = some header →
        match options.find? IpOption.isHash with
        | none => packetHandler sha256 packet = some .noHash
        | some option => ∃ data same,
            packetHandler sha256 packet = some (.checked (option.bytes.drop 4) data same) := by
  intro header
  have hfixed : fixed.toList.length = 20 := fixed.length_toList
  have hscan : findHashOption header header.length 20 = hashOffset 20 options := by
    have hfront := findHashOption_areaBytes fixed.toList options ending (n := header.length)
      (by simp [header])
    rwa [hfixed] at hfront
  refine ⟨?_, fun sha256 packet hproto hihl hheader => ?_⟩
  · rw [hscan, hashOffset, Option.map_map]
    rfl
  · have hreport := packetHandler_scan sha256 hproto hihl hheader
    rw [hscan] at hreport
    cases hfind : options.find? IpOption.isHash with
    | none =>
      have hnone : hashOffset 20 options = none := by
        rw [hashOffset, List.findIdx?_eq_none_iff.mpr (by simpa using hfind)]
        rfl
      rw [hnone] at hreport
      exact hreport
    | some option =>
      obtain ⟨hash, before, after, rfl, hbefore⟩ := List.find?_eq_some_iff_append.mp hfind
      rw [hashOffset_append 20 (by simpa using hbefore) hash] at hreport
      obtain ⟨data, same, hchecked⟩ := hreport
      refine ⟨data, same, hchecked.trans ?_⟩
      have hsplit : header = fixed.toList ++ optionsBytes before ++ option.bytes ++
          areaBytes after ending := by
        simp [header, areaBytes, optionsBytes]
      have hreceived := received_eq (fixed.toList ++ optionsBytes before) hash
        (areaBytes after ending)
      rw [List.length_append, hfixed] at hreceived
      rw [hsplit, hreceived]

/-- A NOP, an option of the hash option's type but of another length, and a hash option. -/
def sampleOptions : List IpOption :=
  [.nop, .tlv 25 [25] (by decide) (by decide),
    .tlv 25 (0x12 :: 0x34 :: List.replicate 32 7) (by decide) (by decide)]

def sampleFixed : Vector UInt8 20 := (Vector.replicate 20 0).set 0 0x4F

def samplePacket : List UInt8 :=
  List.replicate 12 0 ++ [8, 0] ++ sampleFixed.toList ++ areaBytes sampleOptions none

theorem packetHandler_first_hashOption_sample :
    5 < ihl samplePacket 14 ∧ ∃ data same, packetHandler Sha256Spec.digest samplePacket =
      some (.checked (List.replicate 32 7) data same) :=
  ⟨by decide, (packetHandler_first_hashOption sampleFixed sampleOptions none).2 Sha256Spec.digest
    samplePacket (by decide) (by decide) (by decide)⟩

end HashCompress.OptionGrammar
