import HashCompress.HashVerifier
import HashCompress.MessageNetwork

/-! What `xdp_ip_hash_func` puts on the wire, as a function of the frame alone, and what a frame
looks like that has passed through several taggers. -/
namespace HashCompress.FrameHops
open Sha256Kernel Sha256Spec KeyedHash ParsingHelpers OptionInsert XdpProgram PacketPreservation
open HashVerifier MessageNetwork

/-- A frame goes on with `XDP_PASS`; `XDP_ABORTED` drops it. -/
def handleFrame (env : Helpers) (f : Frame) (cpu : Cpu) : Option Frame × Cpu :=
  let r := xdpIpHashFunc env f cpu
  (if r.1.action = .pass then some r.1.frame else none, r.2)

/-- The frame that goes on, on a CPU that has seen no packet yet. -/
def wire (env : Helpers) (f : Frame) : Option Frame := (handleFrame env f .zero).1

/-- The return value and the digest do not depend on what the maps held before, whichever lookups
fail: without the context the hash is what the stack held. -/
theorem computeKeyedHash_stateless (lk : Lookups) {f : Frame} {data dataLen : ℕ}
    (hash : Vector UInt8 32) (m m' : Maps) (hfit : data + dataLen ≤ f.length) :
    (computeKeyedHash lk f data dataLen hash m).1 = (computeKeyedHash lk f data dataLen hash m').1 ∧
      (computeKeyedHash lk f data dataLen hash m).2.1 =
        (computeKeyedHash lk f data dataLen hash m').2.1 := by
  refine ⟨by rw [computeKeyedHash_ret hash m hfit, computeKeyedHash_ret hash m' hfit], ?_⟩
  obtain ⟨ctx, temp⟩ := lk
  cases temp with
  | false => simp [computeKeyedHash]
  | true =>
    cases ctx with
    | false => simp [computeKeyedHash, sha256Final, Nat.not_lt.mpr hfit]
    | true =>
      apply Vector.toList_inj.mp
      exact (computeKeyedHash_digest f data dataLen hash m hfit).2.trans
        (computeKeyedHash_digest f data dataLen hash m' hfit).2.symm

theorem tagFrame_action (env : Helpers) (f : Frame) (pos : ℕ) (m : Maps) :
    (tagFrame env f pos m).action = .pass := by
  simp only [tagFrame]
  split_ifs <;> rfl

/-- A frame is let through unless it is too short for an Ethernet header or claims to be IPv4 and
has no IPv4 header that fits. -/
def lets (f : Frame) : Bool :=
  match parseEthhdr f 0 with
  | none => false
  | some p => p.2 != bpfHtons ethPIp || (ipv4Header f).isSome

lemma lets_of_ipv4Header {f : Frame} {pos : ℕ} (hpos : ipv4Header f = some pos) : lets f = true := by
  simp [lets, (ipv4Header_parse hpos).1, hpos]

theorem hashFrame_action (env : Helpers) (f : Frame) (m : Maps) :
    (hashFrame env f m).action = if lets f then .pass else .aborted := by
  cases hip : ipv4Header f with
  | some pos =>
    rw [hashFrame_accepted env m hip, tagFrame_action, lets_of_ipv4Header hip]
    rfl
  | none =>
    simp only [hashFrame, lets, hip, Option.isSome_none, Bool.or_false]
    cases he : parseEthhdr f 0 with
    | none => rfl
    | some p =>
      obtain ⟨pos, proto⟩ := p
      by_cases hp : proto = bpfHtons ethPIp
      · cases hi : parseIphdr f pos with
        | none => simp [hp, hi]
        | some q => simp [ipv4Header, he, hp, hi] at hip
      · simp [hp]

theorem hashFrame_frame (env : Helpers) (f : Frame) (m m' : Maps) :
    (hashFrame env f m).frame = (hashFrame env f m').frame := by
  cases hip : ipv4Header f with
  | none => rw [(hashFrame_rejected env m hip).1, (hashFrame_rejected env m' hip).1]
  | some pos =>
    obtain ⟨-, -, hfit⟩ := ipv4Header_bounds hip
    obtain ⟨hret, hhash⟩ := computeKeyedHash_stateless env.lookups
      (f := store16 f (pos + 10) 0) env.stack m m' (by rw [store16_length]; exact hfit)
    rw [hashFrame_accepted env m hip, hashFrame_accepted env m' hip]
    simp only [tagFrame, hret, hhash]
    split_ifs <;> rfl

theorem handleFrame_out (env : Helpers) (f : Frame) (cpu : Cpu) :
    (handleFrame env f cpu).1 = wire env f := by
  simp only [wire, handleFrame, xdpIpHashFunc, xdpStatsRecordAction, hashFrame_action,
    hashFrame_frame env f cpu.maps Cpu.zero.maps]
  split_ifs <;> rfl

theorem wire_eq (env : Helpers) (f : Frame) :
    wire env f = if env.statsLookup = true ∧ lets f = true then
      some (hashFrame env f .zero).frame else none := by
  simp only [wire, handleFrame, xdpIpHashFunc, xdpStatsRecordAction, hashFrame_action]
  cases env.statsLookup <;> cases lets f <;> simp [Cpu.zero]

theorem wire_some {env : Helpers} {f g : Frame} (h : wire env f = some g) :
    lets f = true ∧ g = (hashFrame env f .zero).frame := by
  rw [wire_eq] at h
  split_ifs at h with hc
  exact ⟨hc.2, (Option.some.inj h).symm⟩

theorem lets_length {f : Frame} (h : lets f = true) : 14 ≤ f.length := by
  by_contra hlen
  have hnone : parseEthhdr f 0 = none := by
    rw [parseEthhdr, parseEthhdrVlan, if_pos (by omega)]
    rfl
  simp [lets, hnone] at h

/-- The frame behind a header that both helpers accept comes out with its option, or only with the
checksum field cleared. -/
theorem hashFrame_shape (env : Helpers) {f : Frame} {pos : ℕ} (m : Maps)
    (h : ipv4Header f = some pos) :
    (∃ check hash, (hashFrame env f m).frame = tagged (store16 f (pos + 10) 0) check hash) ∨
      (hashFrame env f m).frame = store16 f (pos + 10) 0 := by
  rw [hashFrame_accepted env m h]
  cases hi : (tagFrame env f pos m).inserted with
  | false => exact Or.inr ((tagFrame_outcome env m h).2.2.2.1 hi)
  | true =>
    have hins : (xdpIpHashFunc env f ⟨m, fun _ => ⟨0, 0⟩⟩).1.inserted = true := by
      simp only [xdpIpHashFunc, hashFrame_accepted env m h]
      exact hi
    obtain ⟨check, hash, -, hframe⟩ := inserted_frame h hins
    simp only [xdpIpHashFunc, hashFrame_accepted env m h] at hframe
    exact Or.inl ⟨check, hash, hframe⟩

/-- A tagger never touches the EtherType field. -/
theorem wire_link {env : Helpers} {f g : Frame} (h : wire env f = some g) :
    14 ≤ g.length ∧ load16 g 12 = load16 f 12 := by
  obtain ⟨hlets, rfl⟩ := wire_some h
  cases hip : ipv4Header f with
  | none =>
    rw [(hashFrame_rejected env _ hip).1]
    exact ⟨lets_length hlets, rfl⟩
  | some pos =>
    obtain ⟨h14, h5, hfit⟩ := ipv4Header_bounds hip
    have hkeep : load16 (store16 f (pos + 10) 0) 12 = load16 f 12 :=
      load16_store16_before f 0 (by omega)
    have hlen : (store16 f (pos + 10) 0).length = f.length := store16_length _ _ _
    rcases hashFrame_shape env Maps.zero hip with ⟨check, hash, hframe⟩ | hframe
    · rw [hframe, tagged_length check hash (by omega), load16_tagged_link check hash (by omega)]
      exact ⟨by omega, hkeep⟩
    · rw [hframe]
      exact ⟨by omega, hkeep⟩

theorem hops_link {envs : List Helpers} {f g : Frame} (h : hops wire envs f = some g) :
    load16 g 12 = load16 f 12 := by
  induction envs using List.reverseRecOn generalizing g with
  | nil => rw [Option.some.inj h]
  | append_singleton envs env ih =>
    rw [hops_concat] at h
    obtain ⟨mid, hmid, hlast⟩ := Option.bind_eq_some_iff.mp h
    rw [(wire_link hlast).2, ih hmid]

theorem packetHandler_notIp (sha256 : List UInt8 → List UInt8) {g : Frame} (h14 : 14 ≤ g.length)
    (h : load16 g 12 ≠ bpfHtons ethPIp) : packetHandler sha256 g = some .notIp := by
  have hne : bpfNtohs (load16 g 12) ≠ ethPIp := by
    intro he
    apply h
    rw [← he]
    exact (bpfNtohs_bpfHtons (load16 g 12)).symm
  simp only [packetHandler, readRange_some (show 12 + 2 ≤ g.length by omega), Option.bind_eq_bind,
    Option.bind_some, if_pos hne]

/-- A frame with the EtherType of IPv4 is let through with its header at offset 14 only. -/
theorem ipv4Header_of_lets {f : Frame} (h : lets f = true) (hp : load16 f 12 = bpfHtons ethPIp) :
    ipv4Header f = some 14 := by
  have hv : protoIsVlan (load16 f 12) = false := by rw [hp]; decide
  have heth : parseEthhdr f 0 = some (14, bpfHtons ethPIp) := by
    rw [parseEthhdr_eq (lets_length h)]
    simp only [skipVlans, hv, if_true]
    rw [hp]
  obtain ⟨pos, hpos⟩ := Option.isSome_iff_exists.mp (by simpa [lets, heth] using h)
  rw [hpos, (ipv4Header_untagged hpos hv).1]

/-- What the verifier makes of a frame that went on, when the last tagger had its maps and its
head room. -/
theorem packetHandler_wire (sha256 : List UInt8 → List UInt8) {env : Helpers} {f g : Frame}
    (h : wire env f = some g) (hok : env.lookups = .ok) (hroom : env.adjustHead ≠ none) :
    (load16 f 12 ≠ bpfHtons ethPIp ∧ packetHandler sha256 g = some .notIp) ∨
      (load16 f 12 = bpfHtons ethPIp ∧ packetHandler sha256 g =
        some (.checked (digest (kernelKey ++ hashedHeader f)) (rebuiltHeader f)
          (digest (kernelKey ++ hashedHeader f) ==
            (sha256 (secretKey ++ rebuiltHeader f)).take 32))) := by
  obtain ⟨hlen, hlink⟩ := wire_link h
  by_cases hp : load16 f 12 = bpfHtons ethPIp
  · obtain ⟨hlets, rfl⟩ := wire_some h
    have hpos := ipv4Header_of_lets hlets hp
    have hins : (xdpIpHashFunc env f .zero).1.inserted = true := by
      simp only [xdpIpHashFunc, hashFrame_accepted env _ hpos]
      exact (tagFrame_outcome env _ hpos).2.2.1.mpr ⟨by rw [hok]; rfl, hroom⟩
    exact Or.inr ⟨hp, packetHandler_inserted sha256 hok hpos (by rw [hp]; decide) hins⟩
  · exact Or.inl ⟨hp, packetHandler_notIp sha256 hlen (by rw [hlink]; exact hp)⟩

/-- The twenty header bytes, checksum zero, of a frame that passed through `n` taggers. -/
def hopHeader (f : Frame) (n : ℕ) : List UInt8 :=
  let tot := bpfHtons (bpfNtohs (load16 f 16) + UInt16.ofNat (36 * n))
  [if n = 0 then byteAt f 14 else (byteAt f 14 &&& 0xF0) ||| 14, byteAt f 15,
    UInt8.ofNat tot.toNat, UInt8.ofNat (tot.toNat / 256), byteAt f 18, byteAt f 19, byteAt f 20,
    byteAt f 21, byteAt f 22, byteAt f 23, 0, 0, byteAt f 26, byteAt f 27, byteAt f 28, byteAt f 29,
    byteAt f 30, byteAt f 31, byteAt f 32, byteAt f 33]

/-- The options of all taggers, the last one first. -/
def stackedOptions (f : Frame) : ℕ → List UInt8
  | 0 => []
  | n + 1 => [25, 36, 0x12, 0x34] ++ digest (kernelKey ++ hopHeader f n) ++ stackedOptions f n

theorem hashedHeader_eq (f : Frame) : hashedHeader f =
    [byteAt f 14, byteAt f 15, byteAt f 16, byteAt f 17, byteAt f 18, byteAt f 19, byteAt f 20,
      byteAt f 21, byteAt f 22, byteAt f 23, 0, 0, byteAt f 26, byteAt f 27, byteAt f 28,
      byteAt f 29, byteAt f 30, byteAt f 31, byteAt f 32, byteAt f 33] := by
  have hkeep := fun i h h' => byteAt_store16_ne f (i := i) (j := 24) 0 h h'
  obtain ⟨h24, h25⟩ := byteAt_store16_zero f 24
  simp only [hashedHeader, plainHeader, List.range, List.range.loop, List.map_cons, List.map_nil,
    Nat.reduceAdd, h24, h25]
  simp (disch := omega) only [hkeep]

theorem hopHeader_zero (f : Frame) : hopHeader f 0 = hashedHeader f := by
  have htot : bpfHtons (bpfNtohs (load16 f 16) + UInt16.ofNat (36 * 0)) = load16 f 16 := by
    rw [Nat.mul_zero, show UInt16.ofNat 0 = 0 from rfl, UInt16.add_zero]
    exact bpfNtohs_bpfHtons _
  obtain ⟨h16, h17⟩ := load16_split f 16
  rw [hashedHeader_eq, hopHeader, htot, h16, h17]
  rfl

theorem setIhl_twice (b : UInt8) :
    (((b &&& 0xF0) ||| 14) &&& 0xF0) ||| 14 = (b &&& 0xF0) ||| 14 := by
  revert b
  decide +kernel

theorem setIhl_low_nibble (b c : UInt8) (hc : c = b ∨ c = (b &&& 0xF0) ||| 14) :
    (c &&& 0xF0) ||| 5 = (b &&& 0xF0) ||| 5 := by
  rcases hc with rfl | rfl
  · rfl
  · revert b
    decide +kernel

/-- One more tagger: the header of the frame it puts out. -/
theorem hopHeader_succ {f g : Frame} {n : ℕ} (h : hashedHeader g = hopHeader f n) :
    taggedHeader (store16 g 24 0) 0 = hopHeader f (n + 1) := by
  have hkeep := fun i h h' => byteAt_store16_ne g (i := i) (j := 24) 0 h h'
  rw [hashedHeader_eq, hopHeader] at h
  simp only [List.cons.injEq, true_and, and_true] at h
  obtain ⟨h14, h15, h16, h17, h18, h19, h20, h21, h22, h23, h26, h27, h28, h29, h30, h31, h32,
    h33⟩ := h
  have htot : bpfHtons (bpfNtohs (load16 (store16 g 24 0) 16) + 36) =
      bpfHtons (bpfNtohs (load16 f 16) + UInt16.ofNat (36 * (n + 1))) := by
    rw [load16_store16_before g 0 (by omega), load16_eq h16 h17, bpfNtohs_bpfHtons, Nat.mul_add,
      UInt16.ofNat_add, UInt16.add_assoc]
    rfl
  have hihl : (byteAt g 14 &&& 0xF0) ||| 14 = (byteAt f 14 &&& 0xF0) ||| 14 := by
    rw [h14]
    split_ifs
    · rfl
    · exact setIhl_twice _
  rw [taggedHeader, htot, hopHeader, if_neg (by omega)]
  simp (disch := omega) only [hkeep, hihl, h15, h18, h19, h20, h21, h22, h23, h26, h27, h28, h29,
    h30, h31, h32, h33]
  rfl

theorem plainHeader_append {e header : Frame} (l : Frame) (he : e.length = 14)
    (hh : header.length = 20) : plainHeader (e ++ (header ++ l)) = header := by
  rw [← drop_take_header (by simp only [List.length_append]; omega), List.drop_left' he,
    List.take_left' hh]

theorem hashedHeader_tagged {f : Frame} (check : UInt16) (hash : Vector UInt8 32)
    (h : 34 ≤ f.length) : hashedHeader (tagged f check hash) = taggedHeader f 0 := by
  have h14 : (f.take 14).length = 14 := by rw [List.length_take]; omega
  have hclear : store16 (tagged f check hash) 24 0 =
      f.take 14 ++ (taggedHeader f 0 ++ (optionBytes hash ++ f.drop 34)) := by
    rw [tagged, store16_append_right h14 _ 10]
    rfl
  rw [hashedHeader, hclear, plainHeader_append _ h14 (taggedHeader_length _ _)]

/-- What `n` taggers have made of the untagged frame `f`. -/
structure Hopped (f : Frame) (n : ℕ) (g : Frame) : Prop where
  length_eq : g.length = f.length + 36 * n
  link_eq : g.take 14 = f.take 14
  header_eq : hashedHeader g = hopHeader f n
  rest_eq : g.drop 34 = stackedOptions f n ++ f.drop 34
  accepted : ipv4Header g = some 14

/-- The circumstances under which a tagger does its work. -/
def Works (env : Helpers) : Prop :=
  env.lookups = .ok ∧ env.statsLookup = true ∧ env.adjustHead ≠ none

/-- The frame and the hash a working tagger puts out, for a header at offset 14. -/
theorem wire_works {env : Helpers} (henv : Works env) {f : Frame} (hpos : ipv4Header f = some 14) :
    ∃ check hash, hash.toList = digest (kernelKey ++ hashedHeader f) ∧
      wire env f = some (tagged (store16 f 24 0) check hash) := by
  obtain ⟨hok, hstats, hroom⟩ := henv
  obtain ⟨-, h5, hfit⟩ := ipv4Header_bounds hpos
  have hlets := lets_of_ipv4Header hpos
  have hins : (xdpIpHashFunc env f .zero).1.inserted = true := by
    simp only [xdpIpHashFunc, hashFrame_accepted env _ hpos]
    exact (tagFrame_outcome env _ hpos).2.2.1.mpr ⟨by rw [hok]; rfl, hroom⟩
  obtain ⟨check, hash, hdigest, hframe⟩ := inserted_frame hpos hins
  refine ⟨check, hash, ?_, ?_⟩
  · have hd := hashFrame_digest f Cpu.zero.maps hok
    rw [show (hashFrame env f Cpu.zero.maps).digest = some hash from hdigest, packetDigest, hpos] at hd
    simp only [Option.map_some, Option.some.injEq, show min 20 (ihl f 14 * 4) = 20 by omega] at hd
    rw [hd, drop_take_header (by rw [store16_length]; omega)]
    rfl
  · rw [wire_eq, if_pos ⟨hstats, hlets⟩]
    exact congrArg some hframe

theorem Hopped.start {f : Frame} (hpos : ipv4Header f = some 14) : Hopped f 0 f where
  length_eq := rfl
  link_eq := rfl
  header_eq := (hopHeader_zero f).symm
  rest_eq := rfl
  accepted := hpos

/-- One more hop. -/
theorem Hopped.next {f g : Frame} {n : ℕ} (h : Hopped f n g) (hproto : load16 f 12 = bpfHtons ethPIp)
    {env : Helpers} (henv : Works env) : ∃ g', wire env g = some g' ∧ Hopped f (n + 1) g' := by
  obtain ⟨check, hash, hhash, hwire⟩ := wire_works henv h.accepted
  obtain ⟨-, h5, hfit⟩ := ipv4Header_bounds h.accepted
  have hlen : 34 ≤ (store16 g 24 0).length := by rw [store16_length]; omega
  have hload : load16 (store16 g 24 0) 12 = bpfHtons ethPIp := by
    rw [load16_store16_before g 0 (by omega), ← hproto]
    have hbyte : ∀ i < 14, byteAt g i = byteAt f i := fun i hi => by
      rw [← byteAt_take g hi, h.link_eq, byteAt_take f hi]
    rw [load16, load16, hbyte 12 (by omega), hbyte 13 (by omega)]
  refine ⟨_, hwire, ?_, ?_, ?_, ?_, ?_⟩
  · rw [tagged_length check hash hlen, store16_length, h.length_eq]
    omega
  · rw [← h.link_eq, tagged, List.take_left' (by rw [List.length_take]; omega), store16,
      List.take_set_of_le (by omega), List.take_set_of_le (by omega)]
  · rw [hashedHeader_tagged check hash hlen, hopHeader_succ h.header_eq]
  · rw [drop_tagged check hash hlen, optionBytes_eq, hhash, h.header_eq, stackedOptions, store16,
      List.drop_set_of_lt (by omega), List.drop_set_of_lt (by omega), h.rest_eq]
    simp
  · exact ipv4Header_tagged_plain check hash hlen hload

theorem ipv4Header_proto {f : Frame} (hpos : ipv4Header f = some 14) :
    load16 f 12 = bpfHtons ethPIp := by
  cases hv : protoIsVlan (load16 f 12) with
  | false => exact (ipv4Header_untagged hpos hv).2
  | true =>
    have := (ipv4Header_tagged hpos hv).1
    omega

theorem rebuiltHeader_hopped {f g : Frame} {n : ℕ} (h : Hopped f n g) :
    rebuiltHeader g = (hopHeader f n).set 0 ((byteAt f 14 &&& 0xF0) ||| 5) := by
  have h14 : byteAt g 14 = byteAt f 14 ∨ byteAt g 14 = (byteAt f 14 &&& 0xF0) ||| 14 := by
    have hhead := congrArg List.head? h.header_eq
    rw [hashedHeader_eq, hopHeader] at hhead
    simp only [List.head?_cons, Option.some.injEq] at hhead
    rw [hhead]
    split_ifs
    · exact Or.inl rfl
    · exact Or.inr rfl
  rw [rebuiltHeader, h.header_eq, setIhl_low_nibble _ _ h14]

/-- From the second tagger on the verifier rebuilds another header than the one that was hashed. -/
theorem rebuilt_ne_hopHeader (f : Frame) {n : ℕ} (hn : 0 < n) :
    (hopHeader f n).set 0 ((byteAt f 14 &&& 0xF0) ||| 5) ≠ hopHeader f n := by
  intro h
  have hhead := congrArg List.head? h
  simp only [hopHeader, List.set_cons_zero, List.head?_cons, Option.some.injEq,
    if_neg hn.ne'] at hhead
  revert hhead
  generalize byteAt f 14 = b
  revert b
  decide +kernel

theorem works_headRoom : Works headRoom := ⟨rfl, rfl, by simp [headRoom]⟩

end HashCompress.FrameHops
