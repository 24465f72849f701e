import HashCompress.KeyedHash
import HashCompress.OptionInsert

/-! `xdp_ip_hash_func` as a step on the state that one CPU keeps between packets. -/
namespace HashCompress.XdpProgram
open Sha256Kernel Sha256Spec KeyedHash ParsingHelpers OptionInsert

inductive XdpAction where
  | aborted | drop | pass | tx | redirect
  deriving DecidableEq, Repr

/-- `struct datarec` of `xdp_stats_kern_user.h`. -/
structure Datarec where
  rxPackets : UInt64
  rxBytes : UInt64

structure Cpu where
  maps : Maps
  stats : XdpAction → Datarec

/-- What the kernel decides during one invocation: the map lookups, the head room, and what the
uninitialised `hash_result` holds. -/
structure Helpers where
  lookups : Lookups
  statsLookup : Bool
  adjustHead : Option (Vector UInt8 36)
  stack : Vector UInt8 32

/-- `digest` is `hash_result` once `compute_keyed_hash` has returned 0, `inserted` tells whether
`add_ip_option_hash` returned 0. -/
structure Outcome where
  action : XdpAction
  frame : Frame
  digest : Option (Vector UInt8 32)
  inserted : Bool
  maps : Maps

def xdpStatsRecordAction (found : Bool) (len : ℕ) (stats : XdpAction → Datarec)
    (action : XdpAction) : XdpAction × (XdpAction → Datarec) :=
  if found = false then (.aborted, stats)
  else
    (action, Function.update stats action
      ⟨(stats action).rxPackets + 1, (stats action).rxBytes + UInt64.ofNat len⟩)

/-- Hashing and tagging of a frame whose IPv4 header stands at `iphdr`. -/
def tagFrame (env : Helpers) (f : Frame) (iphdr : ℕ) (m : Maps) : Outcome :=
  let headerSize := ihl f iphdr * 4
  let f := store16 f (iphdr + 10) 0
  let r := computeKeyedHash env.lookups f iphdr headerSize env.stack m
  if r.1 = 0 then
    let a := addIpOptionHash env.adjustHead f r.2.1
    if a.1 < 0 then ⟨.pass, a.2, some r.2.1, false, r.2.2⟩
    else ⟨.pass, a.2, some r.2.1, true, r.2.2⟩
  else ⟨.pass, f, none, false, r.2.2⟩

/-- The body of `xdp_ip_hash_func` up to the label `out`. -/
def hashFrame (env : Helpers) (f : Frame) (m : Maps) : Outcome :=
  match parseEthhdr f 0 with
  | none => ⟨.aborted, f, none, false, m⟩
  | some (pos, ethType) =>
      if ethType = bpfHtons ethPIp then
        match parseIphdr f pos with
        | none => ⟨.aborted, f, none, false, m⟩
        | some _ =>
            if pos + 20 > f.length then ⟨.aborted, f, none, false, m⟩
            else if pos + ihl f pos * 4 > f.length then ⟨.aborted, f, none, false, m⟩
            else tagFrame env f pos m
      else if ethType = bpfHtons ethPIpv6 then ⟨.pass, f, none, false, m⟩
      else ⟨.pass, f, none, false, m⟩

def xdpIpHashFunc (env : Helpers) (f : Frame) (cpu : Cpu) : Outcome × Cpu :=
  let o := hashFrame env f cpu.maps
  let s := xdpStatsRecordAction env.statsLookup o.frame.length cpu.stats o.action
  ({ o with action := s.1 }, ⟨o.maps, s.2⟩)

/-- The packets that arrive on one CPU, one after the other. -/
def runPackets : List (Helpers × Frame) → Cpu → List Outcome × Cpu
  | [], cpu => ([], cpu)
  | (env, f) :: rest, cpu =>
      let r := xdpIpHashFunc env f cpu
      let rs := runPackets rest r.2
      (r.1 :: rs.1, rs.2)

theorem hashFrame_rejected (env : Helpers) {f : Frame} (m : Maps) (h : ipv4Header f = none) :
    (hashFrame env f m).frame = f ∧ (hashFrame env f m).inserted = false ∧
      (hashFrame env f m).digest = none ∧ (hashFrame env f m).maps = m := by
  simp only [ipv4Header, Option.bind_eq_bind] at h
  simp only [hashFrame]
  cases he : parseEthhdr f 0 with
  | none => exact ⟨rfl, rfl, rfl, rfl⟩
  | some p =>
    obtain ⟨pos, proto⟩ := p
    simp only [he, Option.bind_some] at h
    by_cases hp : proto = bpfHtons ethPIp
    · cases hi : parseIphdr f pos with
      | none => simp [hp, hi]
      | some q => simp [hp, hi] at h
    · simp only [if_neg hp, ite_self]
      exact ⟨trivial, trivial, trivial, trivial⟩

theorem hashFrame_accepted (env : Helpers) {f : Frame} {pos : ℕ} (m : Maps)
    (h : ipv4Header f = some pos) : hashFrame env f m = tagFrame env f pos m := by
  obtain ⟨heth, hip⟩ := ipv4Header_parse h
  have hb := ipv4Header_bounds h
  simp only [hashFrame, heth, hip, if_true]
  rw [if_neg (by omega), if_neg (by omega)]

theorem computeKeyedHash_ret {lk : Lookups} {f : Frame} {data dataLen : ℕ}
    (hash : Vector UInt8 32) (m : Maps) (hfit : data + dataLen ≤ f.length) :
    (computeKeyedHash lk f data dataLen hash m).1 = if lk.temp then 0 else -1 := by
  simp only [computeKeyedHash, if_neg (Nat.not_lt.mpr hfit)]
  cases lk.temp <;> simp

theorem addIpOptionHash_none (f : Frame) (hash : Vector UInt8 32) :
    addIpOptionHash none f hash = (-1, f) := by
  simp [addIpOptionHash]

@[simp] theorem store16_length (f : Frame) (i : ℕ) (x : UInt16) :
    (store16 f i x).length = f.length := by
  simp [store16]

theorem store16_zero_eq_self {f : Frame} {i : ℕ} (h : i + 1 < f.length) :
    store16 f i 0 = f ↔ byteAt f i = 0 ∧ byteAt f (i + 1) = 0 := by
  have h0 : byteAt f i = f[i] := List.getD_eq_getElem _ _ (by omega)
  have h1 : byteAt f (i + 1) = f[i + 1] := List.getD_eq_getElem _ _ h
  rw [h0, h1]
  constructor
  · intro he
    have g0 : (store16 f i 0)[i]? = f[i]? := by rw [he]
    have g1 : (store16 f i 0)[i + 1]? = f[i + 1]? := by rw [he]
    simp only [store16, List.getElem?_set, List.length_set] at g0 g1
    simp [show i < f.length by omega, h] at g0 g1
    exact ⟨g0.symm, g1.symm⟩
  · rintro ⟨g0, g1⟩
    have e0 : f.set i (UInt8.ofNat (0 : UInt16).toNat) = f := by
      rw [show UInt8.ofNat (0 : UInt16).toNat = 0 from rfl, ← g0, List.set_getElem_self]
    rw [store16, e0, show UInt8.ofNat ((0 : UInt16).toNat / 256) = 0 from rfl, ← g1,
      List.set_getElem_self]

/-- What tagging an accepted frame comes to: without scratch map or head room only the checksum
field has been cleared, otherwise the option is in place. -/
theorem tagFrame_outcome (env : Helpers) {f : Frame} {pos : ℕ} (m : Maps)
    (h : ipv4Header f = some pos) :
    let o := tagFrame env f pos m
    let f₀ := store16 f (pos + 10) 0
    let r := computeKeyedHash env.lookups f₀ pos (ihl f pos * 4) env.stack m
    o.maps = r.2.2 ∧ (env.lookups.temp = true → o.digest = some r.2.1) ∧
      (o.inserted = true ↔ env.lookups.temp = true ∧ env.adjustHead ≠ none) ∧
      (o.inserted = false → o.frame = f₀) ∧
      (o.inserted = true → o.frame = (addIpOptionHash env.adjustHead f₀ r.2.1).2) := by
  obtain ⟨h14, h5, hfit⟩ := ipv4Header_bounds h
  intro o f₀ r
  have hlen : f₀.length = f.length := store16_length _ _ _
  have hret : r.1 = if env.lookups.temp then 0 else -1 :=
    computeKeyedHash_ret env.stack m (by rw [hlen]; exact hfit)
  have ho : o = if r.1 = 0 then
      (if (addIpOptionHash env.adjustHead f₀ r.2.1).1 < 0 then
        ⟨.pass, (addIpOptionHash env.adjustHead f₀ r.2.1).2, some r.2.1, false, r.2.2⟩
      else ⟨.pass, (addIpOptionHash env.adjustHead f₀ r.2.1).2, some r.2.1, true, r.2.2⟩)
      else ⟨.pass, f₀, none, false, r.2.2⟩ := rfl
  cases htemp : env.lookups.temp with
  | false =>
    simp only [htemp, Bool.false_eq_true, if_false] at hret
    simp [ho, hret]
  | true =>
    simp only [htemp, if_true] at hret
    cases hadj : env.adjustHead with
    | none => simp [ho, hret, hadj, addIpOptionHash_none]
    | some room =>
      have hins : (addIpOptionHash (some room) f₀ r.2.1).1 = 0 := by
        rw [addIpOptionHash_some room r.2.1 (by omega)]
      simp [ho, hret, hadj, hins]

/-- The frame that was received, when the option did not go in. -/
def FailureIntact (env : Helpers) (f : Frame) (cpu : Cpu) : Prop :=
  (xdpIpHashFunc env f cpu).1.inserted = false → (xdpIpHashFunc env f cpu).1.frame = f

/-- A frame that leaves without a hash option leaves as it came exactly when it was not accepted
as IPv4, or its checksum field was zero already; otherwise it leaves with the checksum cleared. -/
theorem failureIntact_iff (env : Helpers) (f : Frame) (cpu : Cpu) :
    FailureIntact env f cpu ↔ ∀ pos, ipv4Header f = some pos →
      (env.lookups.temp = true ∧ env.adjustHead ≠ none) ∨
        (byteAt f (pos + 10) = 0 ∧ byteAt f (pos + 11) = 0) := by
  simp only [FailureIntact, xdpIpHashFunc]
  cases hip : ipv4Header f with
  | none => simp [hashFrame_rejected env cpu.maps hip]
  | some pos =>
    obtain ⟨h14, h5, hfit⟩ := ipv4Header_bounds hip
    obtain ⟨-, -, hins, hkeep, -⟩ := tagFrame_outcome env cpu.maps hip
    have hzero := store16_zero_eq_self (f := f) (i := pos + 10) (by omega)
    simp only [hashFrame_accepted env cpu.maps hip, Option.some.injEq, forall_eq']
    cases hi : (tagFrame env f pos cpu.maps).inserted with
    | true => simpa [hi] using Or.inl (hins.mp hi)
    | false =>
      have hno : ¬ (env.lookups.temp = true ∧ env.adjustHead ≠ none) := by
        rw [← hins, hi]
        simp
      rw [hkeep hi, hzero]
      simp [hno]

/-- A frame with a 20-byte header and the checksum 0x1234. -/
def sampleFrame : Frame :=
  [0, 1, 2, 3, 4, 5, 6, 7, 8, 9, 10, 11, 0x08, 0x00,
    0x45, 0, 0, 20, 0, 0, 0, 0, 64, 17, 0x12, 0x34, 10, 0, 0, 1, 10, 0, 0, 2]

def noHeadRoom : Helpers := ⟨.ok, true, none, Vector.replicate 32 0⟩

def Cpu.zero : Cpu := ⟨.zero, fun _ => ⟨0, 0⟩⟩

theorem failureIntact_noHeadRoom : ¬ FailureIntact noHeadRoom sampleFrame .zero := by
  intro h
  have hip : ipv4Header sampleFrame = some 14 := by decide
  obtain ⟨-, -, hins, hkeep, -⟩ := tagFrame_outcome noHeadRoom Maps.zero hip
  have hi : (tagFrame noHeadRoom sampleFrame 14 Maps.zero).inserted = false := by
    apply Bool.eq_false_iff.mpr
    rw [ne_eq, hins]
    exact fun hc => hc.2 rfl
  have hframe : (tagFrame noHeadRoom sampleFrame 14 Maps.zero).frame = sampleFrame := by
    rw [← hashFrame_accepted noHeadRoom Maps.zero hip] at hi ⊢
    exact h hi
  rw [hkeep hi] at hframe
  exact absurd hframe (by decide)

/-- SHA-256 of the sixteen key bytes and the first header bytes of an accepted packet, with its
checksum field cleared. -/
def packetDigest (f : Frame) : Option (List UInt8) :=
  (ipv4Header f).map fun pos =>
    digest (kernelKey ++ ((store16 f (pos + 10) 0).drop pos).take (min 20 (ihl f pos * 4)))

theorem hashFrame_digest {env : Helpers} (f : Frame) (m : Maps) (hok : env.lookups = .ok) :
    (hashFrame env f m).digest.map Vector.toList = packetDigest f := by
  cases hip : ipv4Header f with
  | none => simp [hashFrame_rejected env m hip, packetDigest, hip]
  | some pos =>
    obtain ⟨-, -, hfit⟩ := ipv4Header_bounds hip
    obtain ⟨-, hdigest, -⟩ := tagFrame_outcome env m hip
    have hkeyed := (computeKeyedHash_digest (store16 f (pos + 10) 0) pos (ihl f pos * 4)
      env.stack m (by rw [store16_length]; exact hfit)).2
    rw [hok] at hdigest
    rw [hashFrame_accepted env m hip, hdigest rfl, Option.map_some, hkeyed, packetDigest, hip]
    rfl

/-- For every sequence of packets on one CPU and every initial contents of its maps, each digest
is a function of its own packet, and so is every hash computed in the state reached. -/
theorem runPackets_digests (arrivals : List (Helpers × Frame)) (cpu : Cpu)
    (hok : ∀ a ∈ arrivals, a.1.lookups = .ok) :
    ((runPackets arrivals cpu).1.map fun o => o.digest.map Vector.toList) =
        arrivals.map (fun a => packetDigest a.2) ∧
      ∀ (f : Frame) (data dataLen : ℕ) (hash : Vector UInt8 32), data + dataLen ≤ f.length →
        (computeKeyedHash .ok f data dataLen hash (runPackets arrivals cpu).2.maps).2.1.toList =
          digest (kernelKey ++ (f.drop data).take (min 20 dataLen)) := by
  constructor
  · induction arrivals generalizing cpu with
    | nil => rfl
    | cons a rest ih =>
      have hhead := hashFrame_digest a.2 cpu.maps (hok a (by simp))
      have htail := ih (xdpIpHashFunc a.1 a.2 cpu).2 fun b hb => hok b (by simp [hb])
      simp only [runPackets, List.map_cons, htail]
      exact congrArg (· :: _) hhead
  · intro f data dataLen hash hfit
    exact (computeKeyedHash_digest f data dataLen hash _ hfit).2

def headRoom : Helpers := ⟨.ok, true, some (Vector.replicate 36 0), Vector.replicate 32 0⟩

theorem runPackets_digests_sample :
    ((runPackets [(noHeadRoom, sampleFrame), (headRoom, sampleFrame)] .zero).1.map
      fun o => o.digest.map Vector.toList) = [packetDigest sampleFrame, packetDigest sampleFrame] :=
  (runPackets_digests [(noHeadRoom, sampleFrame), (headRoom, sampleFrame)] .zero
    (by simp [noHeadRoom, headRoom])).1

end HashCompress.XdpProgram
