import HashCompress.FrameHops
import HashCompress.IpChecksum

/-! `xdp_patch_ports_func`, the program that `xdp_prog_kern_02.c` holds beside the tagger: it lowers
the destination port by one and updates the UDP or TCP checksum in place. -/
namespace HashCompress.PatchPorts
open Sha256Spec KeyedHash ParsingHelpers OptionInsert XdpProgram PacketPreservation OnesComplement
open IpChecksum HashVerifier FrameHops

def ipprotoTcp : UInt8 := 6
def ipprotoUdp : UInt8 := 17

/-- The three assignments to `dest` and `check`, the same for both protocols. -/
def patchPort (f : Frame) (dest check : ℕ) : Frame :=
  let f := store16 f dest (bpfHtons (bpfNtohs (load16 f dest) - 1))
  let f := store16 f check (load16 f check + bpfHtons 1)
  if load16 f check = 0 then store16 f check (load16 f check + bpfHtons 1) else f

/-- What follows the IP header. A header that was not accepted leaves `ip_type` at -1, which is
neither protocol. -/
def patchTransport (f : Frame) : Option (ℕ × UInt8) → XdpAction × Frame
  | none => (.pass, f)
  | some (pos, ipType) =>
      if ipType = ipprotoUdp then
        match parseUdphdr f pos with
        | none => (.aborted, f)
        | some _ => (.pass, patchPort f (pos + 2) (pos + 6))
      else if ipType = ipprotoTcp then
        match parseTcphdr f pos with
        | none => (.aborted, f)
        | some _ => (.pass, patchPort f (pos + 2) (pos + 16))
      else (.pass, f)

/-- The body of `xdp_patch_ports_func` up to the label `out`. -/
def patchFrame (f : Frame) : XdpAction × Frame :=
  match parseEthhdr f 0 with
  | none => (.aborted, f)
  | some (pos, ethType) =>
      if ethType = bpfHtons ethPIp then patchTransport f (parseIphdr f pos)
      else if ethType = bpfHtons ethPIpv6 then patchTransport f (parseIp6hdr f pos)
      else (.pass, f)

def xdpPatchPortsFunc (statsLookup : Bool) (f : Frame) (stats : XdpAction → Datarec) :
    XdpAction × Frame × (XdpAction → Datarec) :=
  let o := patchFrame f
  let s := xdpStatsRecordAction statsLookup o.2.length stats o.1
  (s.1, o.2, s.2)

/-- The cursor behind the IP header and the protocol, when one of the two parsers accepts it. -/
def networkHeader (f : Frame) : Option (ℕ × UInt8) :=
  match parseEthhdr f 0 with
  | none => none
  | some (pos, ethType) =>
      if ethType = bpfHtons ethPIp then parseIphdr f pos
      else if ethType = bpfHtons ethPIpv6 then parseIp6hdr f pos
      else none

/-- Offset of the checksum in a transport header that is going to be patched. -/
def checkOffset (f : Frame) (pos : ℕ) (ipType : UInt8) : Option ℕ :=
  if ipType = ipprotoUdp then (parseUdphdr f pos).map fun _ => 6
  else if ipType = ipprotoTcp then (parseTcphdr f pos).map fun _ => 16
  else none

/-- The frame is patched in the transport header at `pos`, whose checksum is at `pos + check`. -/
def Patches (f : Frame) (pos check : ℕ) : Prop :=
  ∃ ipType, networkHeader f = some (pos, ipType) ∧ checkOffset f pos ipType = some check

lemma patchFrame_eq (f : Frame) : patchFrame f =
    if parseEthhdr f 0 = none then (.aborted, f) else patchTransport f (networkHeader f) := by
  unfold patchFrame networkHeader
  cases parseEthhdr f 0 with
  | none => rfl
  | some p =>
    dsimp only
    split_ifs <;> simp_all [patchTransport]

lemma patchTransport_of_checkOffset {f : Frame} {pos check : ℕ} {ipType : UInt8}
    (h : checkOffset f pos ipType = some check) :
    patchTransport f (some (pos, ipType)) = (.pass, patchPort f (pos + 2) (pos + check)) := by
  rw [patchTransport]
  unfold checkOffset at h
  split_ifs at h ⊢ with hudp htcp
  · obtain ⟨p, hparse, rfl⟩ := Option.map_eq_some_iff.mp h
    rw [hparse]
  · obtain ⟨p, hparse, rfl⟩ := Option.map_eq_some_iff.mp h
    rw [hparse]

/-- Both fields are inside the frame and do not overlap. -/
lemma checkOffset_bounds {f : Frame} {pos check : ℕ} {ipType : UInt8}
    (h : checkOffset f pos ipType = some check) :
    ∃ j, check = 2 * j ∧ 2 ≤ j ∧ pos + check + 1 < f.length := by
  unfold checkOffset at h
  split_ifs at h with hudp htcp
  · obtain ⟨p, hparse, rfl⟩ := Option.map_eq_some_iff.mp h
    refine ⟨3, rfl, by omega, ?_⟩
    by_contra hlen
    rw [parseUdphdr, if_pos (by omega)] at hparse
    cases hparse
  · obtain ⟨p, hparse, rfl⟩ := Option.map_eq_some_iff.mp h
    refine ⟨8, rfl, by omega, ?_⟩
    by_contra hlen
    rw [parseTcphdr, if_pos (by omega)] at hparse
    cases hparse

lemma Patches.frame {f : Frame} {pos check : ℕ} (h : Patches f pos check) :
    patchFrame f = (.pass, patchPort f (pos + 2) (pos + check)) := by
  obtain ⟨ipType, hnet, hcheck⟩ := h
  have heth : parseEthhdr f 0 ≠ none := by
    intro hnone
    simp [networkHeader, hnone] at hnet
  rw [patchFrame_eq, if_neg heth, hnet, patchTransport_of_checkOffset hcheck]

/-! ### The two fields -/

/-- The new checksum field, as the machine holds it. -/
def nextCheck (check : UInt16) : UInt16 :=
  if check + bpfHtons 1 = 0 then check + bpfHtons 1 + bpfHtons 1 else check + bpfHtons 1

lemma store16_store16 (f : Frame) (i : ℕ) (x y : UInt16) :
    store16 (store16 f i x) i y = store16 f i y := by
  unfold store16
  rw [List.set_comm _ _ (show i + 1 ≠ i by omega), List.set_set, List.set_set]

lemma load16_store16_ne (f : Frame) {i j : ℕ} (x : UInt16) (h : i + 1 < j ∨ j + 1 < i) :
    load16 (store16 f j x) i = load16 f i := by
  rw [load16, load16, byteAt_store16_ne f x (by omega) (by omega),
    byteAt_store16_ne f x (by omega) (by omega)]

lemma patchPort_eq {f : Frame} {dest check : ℕ} (hdest : dest + 1 < check)
    (hfit : check + 1 < f.length) :
    patchPort f dest check = store16 (store16 f dest (bpfHtons (bpfNtohs (load16 f dest) - 1))) check
      (nextCheck (load16 f check)) := by
  simp only [patchPort, nextCheck, load16_store16_ne f _ (Or.inr hdest)]
  rw [load16_store16_self _ (by rw [store16_length]; exact hfit)]
  split_ifs
  · rw [store16_store16]
  · rfl

/-- The port goes down by one, and 0 becomes 65535. -/
lemma nextPort_toNat (port : UInt16) :
    (bpfNtohs (bpfHtons (bpfNtohs port - 1))).toNat = ((bpfNtohs port).toNat + 65535) % 65536 := by
  rw [bpfNtohs_bpfHtons, UInt16.toNat_sub]
  simp only [UInt16.reduceToNat]
  omega

/-- The checksum in network order. The low byte goes up by one without a carry into the high byte;
the second addition only keeps the field from being zero. -/
lemma nextCheck_toNat (check : UInt16) :
    (bpfNtohs (nextCheck check)).toNat =
      if (bpfNtohs check).toNat = 255 then 1
      else if (bpfNtohs check).toNat % 256 = 255 then (bpfNtohs check).toNat - 255
      else (bpfNtohs check).toNat + 1 := by
  have hlt := check.toNat_lt
  have hone : (bpfHtons 1).toNat = 256 := by decide
  have hzero : check + bpfHtons 1 = 0 ↔ check.toNat = 65280 := by
    rw [← UInt16.toNat_inj, UInt16.toNat_add, hone, UInt16.toNat_zero]
    omega
  have hnext : (nextCheck check).toNat =
      if check.toNat = 65280 then 256 else (check.toNat + 256) % 65536 := by
    unfold nextCheck
    simp only [hzero]
    split_ifs with h
    · rw [UInt16.toNat_add, UInt16.toNat_add, hone, h]
    · rw [UInt16.toNat_add, hone]
  rw [bpfNtohs_toNat, bpfNtohs_toNat, hnext]
  -- `a` is the low byte in network order, `b` the high one
  obtain ⟨a, b, ha, hb, hab⟩ : ∃ a b, a < 256 ∧ b < 256 ∧ check.toNat = 256 * a + b :=
    ⟨check.toNat / 256, check.toNat % 256, by omega, by omega, by omega⟩
  have hbytes : ∀ a b : ℕ, a < 256 → b < 256 →
      (256 * a + b) % 256 * 256 + (256 * a + b) / 256 = 256 * b + a := fun a b ha hb => by omega
  rw [hab, hbytes a b ha hb]
  by_cases hwrap : a = 255
  · subst hwrap
    by_cases hzero : b = 0
    · subst hzero
      rfl
    · rw [if_neg (by omega), if_neg (by omega), if_pos (by omega),
        show (256 * 255 + b + 256) % 65536 = 256 * 0 + b by omega, hbytes 0 b (by omega) hb]
      omega
  · rw [if_neg (by omega), if_neg (by omega), if_neg (by omega),
      show (256 * a + b + 256) % 65536 = 256 * (a + 1) + b by omega, hbytes (a + 1) b (by omega) hb]
    omega

/-! ### The checksum of the segment -/

lemma segment_store16 (f : Frame) (pos n i : ℕ) (x : UInt16) :
    ((store16 f (pos + i) x).drop pos).take n = store16 ((f.drop pos).take n) i x := by
  have hdrop : ∀ (l : Frame) (k : ℕ) (b : UInt8), (l.set (pos + k) b).drop pos = (l.drop pos).set k b := by
    intro l k b
    rw [List.drop_set, if_neg (by omega), Nat.add_sub_cancel_left]
  rw [store16, store16, Nat.add_assoc, hdrop, hdrop, List.take_set, List.take_set]

lemma swap_toNat (x : UInt16) : swap x.toNat = (bpfNtohs x).toNat := by rw [bpfNtohs_toNat, swap]

/-- Overwriting one word changes the total by the difference of the two words. -/
lemma sum_netWords_store16 {bytes : List UInt8} {j : ℕ} (x : UInt16) (h : 2 * j + 1 < bytes.length) :
    (netWords (store16 bytes (2 * j) x)).sum + be16 bytes (2 * j) =
      (netWords bytes).sum + (bpfNtohs x).toNat := by
  have hj : j < (netWords bytes).length := by
    simp only [netWords, List.length_map, List.length_range]
    omega
  have hword : (netWords bytes)[j] = be16 bytes (2 * j) := by simp [netWords, be16]
  have hset : netWords (store16 bytes (2 * j) x) = (netWords bytes).set j (bpfNtohs x).toNat := by
    rw [netWords_eq, netWords_eq, hostWords_store16 x h, List.map_set, swap_toNat]
  have hsplit : (netWords bytes).sum = ((netWords bytes).take j).sum + be16 bytes (2 * j) +
      ((netWords bytes).drop (j + 1)).sum := by
    have happend := congrArg List.sum (List.take_append_drop j (netWords bytes))
    rw [List.sum_append, List.drop_eq_getElem_cons hj, List.sum_cons, hword] at happend
    omega
  rw [hset, List.sum_set, if_pos hj, hsplit]
  omega

lemma residue_eq_max_iff (n : ℕ) : residue n = 65535 ↔ 0 < n ∧ n % 65535 = 0 := by
  unfold residue
  split_ifs with h
  · simp [h]
  · omega

/-- The total stays divisible exactly when the port does not wrap and the low byte of the checksum
needs no carry. -/
lemma total_mod_iff {total total' port port' check check' : ℕ} (hport : port < 65536)
    (hcheck : check < 65536)
    (htotal : total' + port + check = total + port' + check')
    (hport' : port' = (port + 65535) % 65536)
    (hcheck' : check' = if check = 255 then 1 else if check % 256 = 255 then check - 255
      else check + 1) (hvalid : total % 65535 = 0) :
    total' % 65535 = 0 ↔ port ≠ 0 ∧ check % 256 ≠ 255 := by
  have hdown : port' = if port = 0 then 65535 else port - 1 := by
    rw [hport']
    split_ifs <;> omega
  rw [hdown, hcheck'] at htotal
  clear hport' hcheck' hdown
  split_ifs at htotal <;> omega

lemma byteAt_segment (f : Frame) {pos n i : ℕ} (h : i < n) :
    byteAt ((f.drop pos).take n) i = byteAt f (pos + i) := by
  rw [byteAt_take _ h]
  simp only [byteAt, List.getD_eq_getElem?_getD, List.getElem?_drop]

lemma be16_segment (f : Frame) {pos n i : ℕ} (h : i + 1 < n) :
    be16 ((f.drop pos).take n) i = be16 f (pos + i) := by
  rw [be16, be16, byteAt_segment f (by omega), byteAt_segment f h, Nat.add_assoc]

lemma be16_le_sum {bytes : List UInt8} {j : ℕ} (h : 2 * j + 1 < bytes.length) :
    be16 bytes (2 * j) ≤ (netWords bytes).sum := by
  refine List.le_sum_of_mem (List.mem_map.mpr ⟨j, List.mem_range.mpr (by omega), rfl⟩)

lemma netWords_lt (bytes : List UInt8) : ∀ w ∈ netWords bytes, w < 65536 := by
  intro w hw
  obtain ⟨i, -, rfl⟩ := List.mem_map.mp hw
  have h0 := (byteAt bytes (2 * i)).toNat_lt
  have h1 := (byteAt bytes (2 * i + 1)).toNat_lt
  omega

lemma be16_lt (f : Frame) (i : ℕ) : be16 f i < 65536 := by
  rw [← bpfNtohs_load16]
  exact UInt16.toNat_lt _

section Patched

variable {f : Frame} {pos check : ℕ} (h : Patches f pos check)
include h

lemma Patches.bounds : ∃ j, check = 2 * j ∧ 2 ≤ j ∧ pos + check + 1 < f.length := by
  obtain ⟨ipType, -, hcheck⟩ := h
  exact checkOffset_bounds hcheck

lemma Patches.patched : (patchFrame f).2 =
    store16 (store16 f (pos + 2) (bpfHtons (bpfNtohs (load16 f (pos + 2)) - 1))) (pos + check)
      (nextCheck (load16 f (pos + check))) := by
  obtain ⟨j, hj, h2, hfit⟩ := h.bounds
  rw [h.frame]
  exact patchPort_eq (by omega) hfit

lemma Patches.length_eq : (patchFrame f).2.length = f.length := by
  rw [h.patched, store16_length, store16_length]

lemma Patches.port : be16 (patchFrame f).2 (pos + 2) = (be16 f (pos + 2) + 65535) % 65536 := by
  obtain ⟨j, hj, h2, hfit⟩ := h.bounds
  rw [h.patched, ← bpfNtohs_load16, load16_store16_ne _ _ (by omega), load16_store16_self _ (by omega),
    nextPort_toNat, bpfNtohs_load16]

lemma Patches.checksum : be16 (patchFrame f).2 (pos + check) =
    if be16 f (pos + check) = 255 then 1
    else if be16 f (pos + check) % 256 = 255 then be16 f (pos + check) - 255
    else be16 f (pos + check) + 1 := by
  obtain ⟨j, hj, h2, hfit⟩ := h.bounds
  rw [h.patched, ← bpfNtohs_load16, load16_store16_self _ (by rw [store16_length]; omega),
    nextCheck_toNat, bpfNtohs_load16]

lemma Patches.checksum_pos : 0 < be16 (patchFrame f).2 (pos + check) := by
  rw [h.checksum]
  split_ifs <;> omega

/-- The words of the segment, before and after. -/
lemma Patches.total {n : ℕ} (hn : check + 2 ≤ n) :
    (netWords (((patchFrame f).2.drop pos).take n)).sum + be16 f (pos + 2) + be16 f (pos + check) =
      (netWords ((f.drop pos).take n)).sum + be16 (patchFrame f).2 (pos + 2) +
        be16 (patchFrame f).2 (pos + check) := by
  obtain ⟨j, hj, h2, hfit⟩ := h.bounds
  have hport := h.port
  have hcheck := h.checksum
  rw [← bpfNtohs_load16 f, ← nextPort_toNat] at hport
  rw [← bpfNtohs_load16 f, ← nextCheck_toNat] at hcheck
  rw [hport, hcheck, h.patched, segment_store16, segment_store16]
  generalize bpfHtons (bpfNtohs (load16 f (pos + 2)) - 1) = port'
  generalize nextCheck (load16 f (pos + check)) = check'
  generalize hbytes : (f.drop pos).take n = bytes
  have hlen : check + 1 < bytes.length := by
    rw [← hbytes, List.length_take, List.length_drop]
    omega
  have hone := sum_netWords_store16 port' (show 2 * 1 + 1 < bytes.length by omega)
  have htwo := sum_netWords_store16 check'
    (show 2 * j + 1 < (store16 bytes 2 port').length by rw [store16_length]; omega)
  have hdest : be16 bytes (2 * 1) = be16 f (pos + 2) := by
    rw [← hbytes]
    exact be16_segment f (by omega)
  have hkeep : be16 (store16 bytes 2 port') (2 * j) = be16 f (pos + check) := by
    rw [← bpfNtohs_load16, load16_store16_ne _ _ (by omega), bpfNtohs_load16, ← hbytes, hj]
    exact be16_segment f (by omega)
  rw [hdest] at hone
  rw [hkeep, ← hj] at htwo
  simp only [Nat.mul_one] at hone
  omega

lemma Patches.byteAt_other {i : ℕ} (hi : i ∉ [pos + 2, pos + 3, pos + check, pos + check + 1]) :
    byteAt (patchFrame f).2 i = byteAt f i := by
  simp only [List.mem_cons, List.not_mem_nil, or_false, not_or] at hi
  rw [h.patched, byteAt_store16_ne _ _ hi.2.2.1 hi.2.2.2, byteAt_store16_ne _ _ hi.1 (by omega)]

/-- The new checksum field is never zero, so the new total is not. -/
lemma Patches.total_pos {n : ℕ} (hn : check + 2 ≤ n) :
    0 < (netWords (((patchFrame f).2.drop pos).take n)).sum := by
  obtain ⟨j, hj, -, hfit⟩ := h.bounds
  have hlen : 2 * j + 1 < (((patchFrame f).2.drop pos).take n).length := by
    rw [List.length_take, List.length_drop, h.length_eq]
    omega
  have hword : be16 (((patchFrame f).2.drop pos).take n) (2 * j) = be16 (patchFrame f).2 (pos + 2 * j) :=
    be16_segment _ (by omega)
  have hle := be16_le_sum hlen
  have hnew := h.checksum_pos
  rw [hword, ← hj] at hle
  omega

lemma Patches.valid_iff {n : ℕ} {pseudo : List ℕ} (hn : check + 2 ≤ n) (hpseudo : ∀ w ∈ pseudo, w < 65536)
    (hvalid : sum (pseudo ++ netWords ((f.drop pos).take n)) = 65535) :
    sum (pseudo ++ netWords (((patchFrame f).2.drop pos).take n)) = 65535 ↔
      be16 f (pos + 2) ≠ 0 ∧ be16 f (pos + check) % 256 ≠ 255 := by
  have hlt : ∀ g : Frame, ∀ w ∈ pseudo ++ netWords ((g.drop pos).take n), w < 65536 := by
    intro g w hw
    rcases List.mem_append.mp hw with hw | hw
    · exact hpseudo w hw
    · exact netWords_lt _ w hw
  rw [sum_eq_residue (hlt f), residue_eq_max_iff, List.sum_append] at hvalid
  rw [sum_eq_residue (hlt (patchFrame f).2), residue_eq_max_iff, List.sum_append]
  have htotal : pseudo.sum + (netWords (((patchFrame f).2.drop pos).take n)).sum + be16 f (pos + 2) +
      be16 f (pos + check) = pseudo.sum + (netWords ((f.drop pos).take n)).sum +
        be16 (patchFrame f).2 (pos + 2) + be16 (patchFrame f).2 (pos + check) := by
    have hwords := h.total hn
    omega
  have hmod := total_mod_iff (be16_lt f (pos + 2)) (be16_lt f (pos + check)) htotal h.port h.checksum
    hvalid.2
  rw [← hmod]
  exact and_iff_right (Nat.add_pos_right _ (h.total_pos hn))

end Patched

/-- Every frame that the program patches: it is passed on and counted, and nothing changes but the
port, which goes down by one, and the checksum field. A segment with a valid checksum, under whatever
pseudo header, stays valid exactly when the port was not 0 and the low byte of the checksum was not
`0xFF`; a field of zero, which stands for no checksum, is filled. -/
theorem xdpPatchPortsFunc_checksum {f : Frame} {pos check : ℕ} (h : Patches f pos check)
    (stats : XdpAction → Datarec) :
    let r := xdpPatchPortsFunc true f stats
    let f' := r.2.1
    (r.1 = .pass ∧ r.2.2 = Function.update stats .pass
        ⟨(stats .pass).rxPackets + 1, (stats .pass).rxBytes + UInt64.ofNat f.length⟩) ∧
      f'.length = f.length ∧
      (∀ i, i ∉ [pos + 2, pos + 3, pos + check, pos + check + 1] → byteAt f' i = byteAt f i) ∧
      be16 f' (pos + 2) = (be16 f (pos + 2) + 65535) % 65536 ∧
      (be16 f (pos + check) = 0 → be16 f' (pos + check) = 1) ∧
      ∀ n pseudo, check + 2 ≤ n → (∀ w ∈ pseudo, w < 65536) →
        sum (pseudo ++ netWords ((f.drop pos).take n)) = 65535 →
        (sum (pseudo ++ netWords ((f'.drop pos).take n)) = 65535 ↔
          be16 f (pos + 2) ≠ 0 ∧ be16 f (pos + check) % 256 ≠ 255) := by
  intro r f'
  have haction : (patchFrame f).1 = .pass := by rw [h.frame]
  refine ⟨?_, h.length_eq, fun i hi => h.byteAt_other hi, h.port, fun hzero => ?_,
    fun n pseudo hn hpseudo hvalid => h.valid_iff hn hpseudo hvalid⟩
  · simp only [r, xdpPatchPortsFunc, xdpStatsRecordAction, haction, h.length_eq]
    exact ⟨rfl, rfl⟩
  · have hcheck : be16 f' (pos + check) = _ := h.checksum
    rw [hcheck, hzero]
    rfl

/-- A UDP datagram without data from port 1000 to port 53. -/
def udpFrame : Frame :=
  [0, 1, 2, 3, 4, 5, 6, 7, 8, 9, 10, 11, 0x08, 0x00,
    0x45, 0, 0, 28, 0, 0, 0, 0, 64, 17, 0x12, 0x34, 10, 0, 0, 1, 10, 0, 0, 2,
    0x03, 0xE8, 0, 53, 0, 8, 0xE7, 0xBE]

lemma patches_udpFrame : Patches udpFrame 34 6 := ⟨17, by decide, by decide⟩

theorem xdpPatchPortsFunc_checksum_udp :
    sum ([0x0A00, 1, 0x0A00, 2, 17, 8] ++
      netWords (((xdpPatchPortsFunc true udpFrame fun _ => ⟨0, 0⟩).2.1.drop 34).take 8)) = 65535 :=
  ((xdpPatchPortsFunc_checksum patches_udpFrame fun _ => ⟨0, 0⟩).2.2.2.2.2 8
    [0x0A00, 1, 0x0A00, 2, 17, 8] (by decide) (by decide) (by decide)).mpr (by decide)

/-! ### Beside the tagger -/

/-- What is done to the transport header does not depend on where it stands. -/
lemma patchPort_append {e : Frame} {n : ℕ} (he : e.length = n) (l : Frame) (dest check : ℕ) :
    patchPort (e ++ l) (n + dest) (n + check) = e ++ patchPort l dest check := by
  simp only [patchPort, load16_append_right he, store16_append_right he]
  split_ifs <;> rfl

lemma patchTransport_append {e : Frame} {n : ℕ} (he : e.length = n) (l : Frame) (ipType : UInt8) :
    patchTransport (e ++ l) (some (n, ipType)) =
      Prod.map id (e ++ ·) (patchTransport l (some (0, ipType))) := by
  have hlen : (e ++ l).length = n + l.length := by rw [List.length_append, he]
  have hudp : (parseUdphdr (e ++ l) n).isSome = (parseUdphdr l 0).isSome := by
    simp only [parseUdphdr, hlen, load16_append_right he, Nat.add_lt_add_iff_left, gt_iff_lt,
      Nat.zero_add]
    split_ifs <;> rfl
  have htcp : (parseTcphdr (e ++ l) n).isSome = (parseTcphdr l 0).isSome := by
    simp only [parseTcphdr, hlen, byteAt_append_right he, Nat.add_lt_add_iff_left, gt_iff_lt,
      Nat.zero_add]
    split_ifs <;> rfl
  simp only [patchTransport]
  split_ifs
  · cases h : parseUdphdr (e ++ l) n <;> cases h' : parseUdphdr l 0 <;>
      simp_all [patchPort_append]
  · cases h : parseTcphdr (e ++ l) n <;> cases h' : parseTcphdr l 0 <;>
      simp_all [patchPort_append]
  · rfl

section Front

variable {e : Frame} (he : 34 ≤ e.length) (hproto : load16 e 12 = bpfHtons ethPIp)

include he in
lemma load16_front (rest : Frame) {i : ℕ} (hi : i + 1 < 34) : load16 (e ++ rest) i = load16 e i := by
  rw [load16, load16, byteAt_append_left _ (by omega), byteAt_append_left _ (by omega)]

include he hproto

lemma ipv4Header_front (hihl : 5 ≤ ihl e 14) {rest : Frame}
    (hfit : 14 + ihl e 14 * 4 ≤ (e ++ rest).length) : ipv4Header (e ++ rest) = some 14 := by
  have hihl' : ihl (e ++ rest) 14 = ihl e 14 := by rw [ihl, ihl, byteAt_append_left _ (by omega)]
  have hlen : (e ++ rest).length = e.length + rest.length := List.length_append
  have hplain : protoIsVlan (bpfHtons ethPIp) = false := by decide
  have heth : parseEthhdr (e ++ rest) 0 = some (14, bpfHtons ethPIp) := by
    rw [parseEthhdr_eq (by omega), load16_front he rest (by omega), hproto]
    simp [skipVlans, hplain]
  simp only [ipv4Header, heth, Option.bind_eq_bind, Option.bind_some, if_true, parseIphdr, hihl']
  rw [if_neg (by omega), if_neg (by omega), if_neg (by omega)]
  rfl

/-- A frame whose IP header ends where `e` does. -/
lemma patchFrame_front (hihl : 14 + ihl e 14 * 4 = e.length) (rest : Frame) :
    patchFrame (e ++ rest) =
      Prod.map id (e ++ ·) (patchTransport rest (some (0, byteAt e 23))) := by
  have hpos := ipv4Header_front he hproto (by omega)
    (show 14 + ihl e 14 * 4 ≤ (e ++ rest).length by rw [List.length_append]; omega)
  obtain ⟨heth, hip⟩ := ipv4Header_parse hpos
  have hihl' : ihl (e ++ rest) 14 = ihl e 14 := by rw [ihl, ihl, byteAt_append_left _ (by omega)]
  rw [hihl', hihl, byteAt_append_left _ (by omega)] at hip
  simp only [patchFrame, heth, if_true, hip]
  exact patchTransport_append rfl rest _

end Front

lemma calculateIpChecksum_append {a : List UInt8} (h : a.length = 56) (l : List UInt8) :
    calculateIpChecksum (a ++ l) 56 = calculateIpChecksum a 56 := by
  apply UInt16.toNat_inj.mp
  rw [calculateIpChecksum_toNat (by rw [List.length_append]; omega) (by omega),
    calculateIpChecksum_toNat (by omega) (by omega), List.take_left' h, ← h, List.take_length]

/-- The frame that a working tagger puts out, with its checksum. -/
lemma wire_tagged {env : Helpers} (henv : Works env) {f : Frame} (hpos : ipv4Header f = some 14) :
    ∃ hash : Vector UInt8 32, hash.toList = digest (kernelKey ++ hashedHeader f) ∧
      let f₀ := store16 f 24 0
      wire env f = some (tagged f₀
        (calculateIpChecksum (taggedHeader f₀ 0 ++ optionBytes hash) 56) hash) := by
  obtain ⟨hok, hstats, hroom⟩ := henv
  obtain ⟨-, h5, hfit⟩ := ipv4Header_bounds hpos
  obtain ⟨room, hroom'⟩ := Option.ne_none_iff_exists'.mp hroom
  have hlen : (store16 f 24 0).length = f.length := store16_length _ _ _
  obtain ⟨-, -, hiff, -, hset⟩ := tagFrame_outcome env .zero hpos
  refine ⟨(computeKeyedHash env.lookups (store16 f 24 0) 14 (ihl f 14 * 4) env.stack
    .zero).2.1, ?_, ?_⟩
  · rw [hok, (computeKeyedHash_digest _ _ _ _ _ (by omega)).2, keyedMessage,
      show min 20 (ihl f 14 * 4) = 20 by omega, drop_take_header (by omega)]
    rfl
  · intro f₀
    rw [wire_eq, if_pos ⟨hstats, lets_of_ipv4Header hpos⟩, hashFrame_accepted env _ hpos,
      hset (hiff.mpr ⟨by rw [hok]; rfl, hroom⟩), hroom',
      addIpOptionHash_some room _ (by rw [store16_length]; omega),
      ← List.append_assoc (taggedHeader _ 0), calculateIpChecksum_append (by simp)]
    rfl

section Copied

variable {e : Frame} (he : 34 ≤ e.length) (rest : Frame)
include he

lemma store16_front : store16 (e ++ rest) 24 0 = store16 e 24 0 ++ rest := by
  rw [store16, store16, List.set_append_left _ _ (by omega),
    List.set_append_left _ _ (by rw [List.length_set]; omega)]

lemma taggedHeader_front (check : UInt16) : taggedHeader (e ++ rest) check = taggedHeader e check := by
  have hbyte : ∀ i < 34, byteAt (e ++ rest) i = byteAt e i := fun i hi =>
    byteAt_append_left rest (by omega)
  unfold taggedHeader
  rw [load16_front he rest (by omega)]
  simp (disch := omega) only [hbyte]

lemma hashedHeader_front : hashedHeader (e ++ rest) = hashedHeader e := by
  rw [hashedHeader, hashedHeader, store16_front he, plainHeader, plainHeader]
  refine List.map_congr_left fun i hi => byteAt_append_left _ ?_
  have hi20 := List.mem_range.mp hi
  rw [store16_length]
  omega

end Copied

/-- With its maps a tagger copies everything behind the fixed header and does not look at it, whether
there is head room for the option or not. -/
lemma wire_front {env : Helpers} (hok : env.lookups = .ok) (hstats : env.statsLookup = true) {e : Frame}
    (he : e.length = 34) (hproto : load16 e 12 = bpfHtons ethPIp) (hihl : ihl e 14 = 5) :
    ∃ e', 34 ≤ e'.length ∧ load16 e' 12 = bpfHtons ethPIp ∧ 14 + ihl e' 14 * 4 = e'.length ∧
      byteAt e' 23 = byteAt e 23 ∧ ∀ rest, wire env (e ++ rest) = some (e' ++ rest) := by
  have hlen : (store16 e 24 0).length = 34 := by rw [store16_length, he]
  have hpos : ∀ rest, ipv4Header (e ++ rest) = some 14 := fun rest =>
    ipv4Header_front he.ge hproto hihl.ge (by rw [List.length_append]; omega)
  have hprotocol : byteAt (store16 e 24 0) 23 = byteAt e 23 :=
    byteAt_store16_ne e 0 (by omega) (by omega)
  by_cases hroom : env.adjustHead = none
  · -- only the checksum is cleared
    refine ⟨store16 e 24 0, hlen.ge, ?_, ?_, hprotocol, fun rest => ?_⟩
    · rw [load16_store16_before e 0 (by omega), hproto]
    · rw [hlen, ihl, byteAt_store16_ne e 0 (by omega) (by omega)]
      rw [ihl] at hihl
      omega
    · obtain ⟨-, -, hiff, hkeep, -⟩ := tagFrame_outcome env .zero (hpos rest)
      rw [wire_eq, if_pos ⟨hstats, lets_of_ipv4Header (hpos rest)⟩,
        hashFrame_accepted env _ (hpos rest), hkeep, store16_front he.ge]
      rw [Bool.eq_false_iff, ne_eq, hiff]
      exact fun h => h.2 hroom
  · have henv : Works env := ⟨hok, hstats, hroom⟩
    obtain ⟨hash, hhash, -⟩ := wire_tagged henv (hpos [])
    rw [List.append_nil] at hhash
    generalize hcheck : calculateIpChecksum (taggedHeader (store16 e 24 0) 0 ++ optionBytes hash) 56 =
      check
    have hlen' : (tagged (store16 e 24 0) check hash).length = 70 := by
      rw [tagged_length _ _ hlen.ge, hlen]
    refine ⟨tagged (store16 e 24 0) check hash, by omega, ?_, ?_, ?_, fun rest => ?_⟩
    · rw [load16_tagged_link _ _ hlen.ge, load16_store16_before e 0 (by omega), hproto]
    · rw [hlen', ihl_tagged _ _ hlen.ge]
    · rw [byteAt_tagged_same _ _ hlen.ge (by omega) (by omega) (by decide), hprotocol]
    · obtain ⟨hash', hhash', hwire⟩ := wire_tagged henv (hpos rest)
      obtain rfl : hash' = hash := by
        apply Vector.toList_inj.mp
        rw [hhash', hhash, hashedHeader_front he.ge]
      rw [hwire]
      simp only [store16_front he.ge, taggedHeader_front hlen.ge, hcheck, tagged,
        List.take_append_of_le_length (show 14 ≤ (store16 e 24 0).length by omega),
        List.drop_append_of_le_length hlen.ge, List.append_assoc]

/-! ### The two programs one after the other -/

/-- The frame that goes on behind the port patcher. -/
def patchWire (f : Frame) : Option Frame :=
  if (patchFrame f).1 = .pass then some (patchFrame f).2 else none

lemma wire_patchWire_ipv4 {env : Helpers} (hok : env.lookups = .ok) (hstats : env.statsLookup = true)
    {f : Frame} (hpos : ipv4Header f = some 14) (hihl : ihl f 14 = 5) :
    (wire env f).bind patchWire = (patchWire f).bind (wire env) := by
  obtain ⟨-, -, hfit⟩ := ipv4Header_bounds hpos
  have he : (f.take 34).length = 34 := by rw [List.length_take]; omega
  have hbyte : ∀ i < 34, byteAt (f.take 34) i = byteAt f i := fun i hi => byteAt_take f hi
  have hproto : load16 (f.take 34) 12 = bpfHtons ethPIp := by
    rw [← ipv4Header_proto hpos, load16, load16, hbyte 12 (by omega), hbyte 13 (by omega)]
  have hfront : ihl (f.take 34) 14 = 5 := by rw [← hihl, ihl, ihl, hbyte 14 (by omega)]
  obtain ⟨e', hlen, hproto', hihl', hprotocol, hwire⟩ := wire_front hok hstats he hproto hfront
  have hplain := patchFrame_front he.ge hproto (by omega) (f.drop 34)
  have htagged := patchFrame_front hlen hproto' hihl' (f.drop 34)
  rw [List.take_append_drop] at hplain
  rw [hprotocol] at htagged
  have hfirst : wire env f = some (e' ++ f.drop 34) := by rw [← hwire, List.take_append_drop]
  rw [hfirst, Option.bind_some, patchWire, patchWire, hplain, htagged]
  simp only [Prod.map_fst, Prod.map_snd, id_eq]
  split_ifs
  · rw [Option.bind_some, hwire]
  · rfl

lemma patchPort_link (f : Frame) {dest check : ℕ} (hdest : 13 < dest) (hcheck : 13 < check) :
    (patchPort f dest check).length = f.length ∧ load16 (patchPort f dest check) 12 = load16 f 12 := by
  have hkeep : ∀ (g : Frame) (x : UInt16) j, 13 < j → load16 (store16 g j x) 12 = load16 g 12 :=
    fun g x j hj => load16_store16_ne g x (Or.inl hj)
  simp only [patchPort]
  split_ifs <;> simp (disch := assumption) only [store16_length, hkeep, and_self]

lemma parseEthhdr_untagged {f : Frame} (hlen : 14 ≤ f.length)
    (hvlan : protoIsVlan (load16 f 12) = false) : parseEthhdr f 0 = some (14, load16 f 12) := by
  rw [parseEthhdr_eq hlen]
  simp [skipVlans, hvlan]

/-- A frame that is neither tagged nor IPv4 passes the tagger as it is. -/
lemma wire_other {env : Helpers} (hstats : env.statsLookup = true) {f : Frame} (hlen : 14 ≤ f.length)
    (hvlan : protoIsVlan (load16 f 12) = false) (hip : load16 f 12 ≠ bpfHtons ethPIp) :
    wire env f = some f := by
  have heth := parseEthhdr_untagged hlen hvlan
  have hnone : ipv4Header f = none := by
    simp [ipv4Header, heth, hip]
  rw [wire_eq, if_pos ⟨hstats, by simp [lets, heth, hip]⟩, (hashFrame_rejected env _ hnone).1]

lemma patchFrame_other {f : Frame} (hlen : 14 ≤ f.length) (hvlan : protoIsVlan (load16 f 12) = false)
    (hip : load16 f 12 ≠ bpfHtons ethPIp) :
    (patchFrame f).2.length = f.length ∧ load16 (patchFrame f).2 12 = load16 f 12 := by
  have heth := parseEthhdr_untagged hlen hvlan
  simp only [patchFrame, heth, if_neg hip]
  split_ifs
  · unfold parseIp6hdr
    split_ifs
    · exact ⟨rfl, rfl⟩
    · simp only [patchTransport]
      split_ifs
      · cases parseUdphdr f (14 + 40) with
        | none => exact ⟨rfl, rfl⟩
        | some p => exact patchPort_link f (by omega) (by omega)
      · cases parseTcphdr f (14 + 40) with
        | none => exact ⟨rfl, rfl⟩
        | some p => exact patchPort_link f (by omega) (by omega)
      · exact ⟨rfl, rfl⟩
  · exact ⟨rfl, rfl⟩

/-- A tagger that has its maps, with head room or without, and the port patcher commute on every frame
without VLAN tags and IP options of its own, malformed ones included: which of the two it meets first
makes no difference to the frame that leaves, or to whether it is dropped. -/
theorem wire_patchWire_comm {env : Helpers} (hok : env.lookups = .ok) {f : Frame}
    (hvlan : protoIsVlan (load16 f 12) = false)
    (hoptions : ∀ pos, ipv4Header f = some pos → ihl f pos = 5) :
    (wire env f).bind patchWire = (patchWire f).bind (wire env) := by
  cases hstats : env.statsLookup with
  | false =>
    have hnone : ∀ g, wire env g = none := fun g => by rw [wire_eq, if_neg (by simp [hstats])]
    rw [hnone, Option.bind_none]
    cases patchWire f with
    | none => rfl
    | some g => exact (hnone g).symm
  | true =>
    by_cases hlen : 14 ≤ f.length
    · have heth := parseEthhdr_untagged hlen hvlan
      by_cases hip : load16 f 12 = bpfHtons ethPIp
      · cases hpos : ipv4Header f with
        | some pos =>
          obtain rfl : pos = 14 := (ipv4Header_untagged hpos hvlan).1
          exact wire_patchWire_ipv4 hok hstats hpos (hoptions 14 hpos)
        | none =>
          -- the tagger drops the malformed header, which the patcher passes on
          have hparse : parseIphdr f 14 = none := by
            by_contra hsome
            obtain ⟨p, hp⟩ := Option.ne_none_iff_exists'.mp hsome
            simp [ipv4Header, heth, hip, hp] at hpos
          have hdrop : wire env f = none := by
            rw [wire_eq, if_neg (by simp [lets, heth, hip, hpos])]
          have hpatch : patchFrame f = (.pass, f) := by
            simp [patchFrame, heth, hip, hparse, patchTransport]
          rw [hdrop, patchWire, hpatch, if_pos rfl, Option.bind_none, Option.bind_some, hdrop]
      · obtain ⟨hlen', hproto'⟩ := patchFrame_other hlen hvlan hip
        rw [wire_other hstats hlen hvlan hip, Option.bind_some, patchWire]
        split_ifs
        · rw [Option.bind_some, wire_other hstats (hlen'.ge.trans' hlen) (by rw [hproto', hvlan])
            (by rw [hproto']; exact hip)]
        · rfl
    · have hnone : parseEthhdr f 0 = none := by
        rw [parseEthhdr, parseEthhdrVlan, if_pos (by omega)]
        rfl
      rw [wire_eq, if_neg (by simp [lets, hnone]), patchWire, patchFrame]
      simp [hnone]

/-- The same datagram in IPv6. -/
def udp6Frame : Frame :=
  [0, 1, 2, 3, 4, 5, 6, 7, 8, 9, 10, 11, 0x86, 0xDD, 0x60, 0, 0, 0, 0, 8, 17, 64] ++
    List.replicate 32 1 ++ [0x03, 0xE8, 0, 53, 0, 8, 0xE7, 0xBE]

theorem wire_patchWire_comm_udp :
    (wire headRoom udpFrame).bind patchWire = (patchWire udpFrame).bind (wire headRoom) ∧
      (wire noHeadRoom udp6Frame).bind patchWire = (patchWire udp6Frame).bind (wire noHeadRoom) := by
  constructor
  · exact wire_patchWire_comm rfl (by decide) (by decide)
  · exact wire_patchWire_comm rfl (by decide) (by decide)

end HashCompress.PatchPorts
