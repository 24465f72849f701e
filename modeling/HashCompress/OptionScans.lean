import HashCompress.HashVerifier

/-! The two scans over the IP options in `packet_handler`, and the bytes of the packet that the
handler reads. The first scan knows NOP and end of options, the second one does not. -/
namespace HashCompress.OptionScans
open ParsingHelpers OptionInsert HashVerifier PacketPreservation

/-! ### The second scan -/

/-- The offset at which the second scan finds its option. -/
def removalOffset (header : List UInt8) : ℕ → ℕ → Option ℕ
  | 0, _ => none
  | n + 1, pos =>
      if pos < header.length then
        if isHashOption header pos then some pos
        else if pos + 1 ≥ header.length then none
        else removalOffset header n (pos + optionStep header pos)
      else none

/-- Moving on from option to option by the length bytes alone leads from one offset to another. -/
inductive Hops (header : List UInt8) : ℕ → ℕ → Prop
  | here (pos : ℕ) : Hops header pos pos
  | next {pos stop : ℕ} (h : Hops header (pos + optionStep header pos) stop) : Hops header pos stop

/-- The second scan, in the copy with the restored fields, finds the option at `pos` as well, and
what is hashed is the copy with exactly these 36 bytes cut out. -/
def ScansAgree (header : List UInt8) (pos : ℕ) : Prop :=
  let newIhl := UInt8.ofNat (header.length / 4) - 9
  let restored := restoreFields header newIhl
  removalOffset restored restored.length 20 = some pos ∧
    (removeHashOption restored restored.length 20).2 = true ∧
    ((removeHashOption restored restored.length 20).1).take (newIhl.toNat * 4) =
      restored.take pos ++ restored.drop (pos + 36)

lemma removeHashOption_eq (header : List UInt8) (n pos : ℕ) :
    removeHashOption header n pos =
      match removalOffset header n pos with
      | some q =>
          (header.take q ++ header.drop (q + 36) ++ header.drop (header.length - 36), true)
      | none => (header, false) := by
  induction n generalizing pos with
  | zero => rfl
  | succ n ih =>
    unfold removeHashOption removalOffset
    split_ifs
    · rfl
    · rfl
    · exact ih _
    · rfl

lemma optionStep_pos (header : List UInt8) (pos : ℕ) : 0 < optionStep header pos := by
  unfold optionStep
  split_ifs with h
  · omega
  · rw [← UInt8.toNat_inj] at h
    exact Nat.pos_of_ne_zero h

lemma Hops.le {header : List UInt8} {pos stop : ℕ} (h : Hops header pos stop) : pos ≤ stop := by
  induction h with
  | here pos => exact le_rfl
  | next h ih => omega

lemma isHashOption_iff {header : List UInt8} {pos : ℕ} :
    isHashOption header pos = true ↔
      byteAt header pos = 25 ∧ byteAt header (pos + 1) = 36 ∧ pos + 36 ≤ header.length := by
  simp only [isHashOption, ipOptHashId, Bool.and_eq_true, beq_iff_eq, decide_eq_true_eq]
  constructor
  · rintro ⟨⟨⟨h0, -⟩, h1⟩, hle⟩
    exact ⟨h0, h1, hle⟩
  · rintro ⟨h0, h1, hle⟩
    exact ⟨⟨⟨h0, by omega⟩, h1⟩, hle⟩

lemma optionStep_of_isHashOption {header : List UInt8} {pos : ℕ}
    (h : isHashOption header pos = true) : optionStep header pos = 36 := by
  unfold optionStep
  rw [(isHashOption_iff.mp h).2.1]
  rfl

lemma removalOffset_hops {header : List UInt8} {n pos stop : ℕ}
    (h : removalOffset header n pos = some stop) : Hops header pos stop := by
  induction n generalizing pos with
  | zero => cases h
  | succ n ih =>
    unfold removalOffset at h
    split_ifs at h with hlt hash hend
    · cases h
      exact .here _
    · exact .next (ih h)

/-- A header has room for one hash option only, so none stands on the way to `stop`. -/
lemma removalOffset_of_hops {header : List UInt8} {pos stop : ℕ} (h : Hops header pos stop)
    (h60 : header.length ≤ 60) (hpos : 20 ≤ pos) (hstop : isHashOption header stop = true) {n : ℕ}
    (hn : header.length ≤ pos + n) : removalOffset header n pos = some stop := by
  have hfit := (isHashOption_iff.mp hstop).2.2
  induction h generalizing n with
  | here pos =>
    obtain ⟨n, rfl⟩ : ∃ k, n = k + 1 := ⟨n - 1, by omega⟩
    rw [removalOffset, if_pos (by omega), if_pos hstop]
  | @next pos stop hnext ih =>
    have hle := hnext.le
    have hstep := optionStep_pos header pos
    obtain ⟨n, rfl⟩ : ∃ k, n = k + 1 := ⟨n - 1, by omega⟩
    have hno : ¬ isHashOption header pos = true := by
      intro hash
      rw [optionStep_of_isHashOption hash] at hle
      omega
    rw [removalOffset, if_pos (by omega), if_neg hno, if_neg (by omega)]
    exact ih (by omega) hstop (by omega) hfit

lemma findHashOption_spec {header : List UInt8} {n pos stop : ℕ}
    (h : findHashOption header n pos = some stop) : pos ≤ stop ∧ isHashOption header stop = true := by
  induction n generalizing pos with
  | zero => cases h
  | succ n ih =>
    unfold findHashOption at h
    split_ifs at h with hlt hzero hone hash hend
    · obtain ⟨hle, hstop⟩ := ih h
      exact ⟨by omega, hstop⟩
    · cases h
      exact ⟨le_rfl, hash⟩
    · obtain ⟨hle, hstop⟩ := ih h
      exact ⟨by omega, hstop⟩

/-! ### The restored fields stand before the options -/

section Restored

variable (header : List UInt8) (newIhl : UInt8)

lemma restoreFields_length : (restoreFields header newIhl).length = header.length := by
  simp [restoreFields, store16]

lemma byteAt_restoreFields {i : ℕ} (hi : 12 ≤ i) :
    byteAt (restoreFields header newIhl) i = byteAt header i := by
  unfold restoreFields
  dsimp only
  rw [byteAt_store16_ne _ _ (by omega) (by omega), byteAt_store16_ne _ _ (by omega) (by omega)]
  simp only [byteAt, List.getD_eq_getElem?_getD]
  rw [List.getElem?_set_ne (by omega)]

lemma isHashOption_restoreFields {pos : ℕ} (hpos : 12 ≤ pos) :
    isHashOption (restoreFields header newIhl) pos = isHashOption header pos := by
  unfold isHashOption
  rw [restoreFields_length, byteAt_restoreFields header newIhl hpos,
    byteAt_restoreFields header newIhl (by omega)]

lemma optionStep_restoreFields {pos : ℕ} (hpos : 12 ≤ pos) :
    optionStep (restoreFields header newIhl) pos = optionStep header pos := by
  unfold optionStep
  rw [byteAt_restoreFields header newIhl (by omega)]

lemma removalOffset_restoreFields (n : ℕ) {pos : ℕ} (hpos : 12 ≤ pos) :
    removalOffset (restoreFields header newIhl) n pos = removalOffset header n pos := by
  induction n generalizing pos with
  | zero => rfl
  | succ n ih =>
    unfold removalOffset
    rw [restoreFields_length, isHashOption_restoreFields header newIhl hpos,
      optionStep_restoreFields header newIhl hpos, ih (by omega)]

end Restored

/-- For every header and every hash option that the first scan finds: the second scan agrees
exactly when the length bytes alone lead to that option. -/
theorem scansAgree_iff {header : List UInt8} (hlen : header.length = 4 * ihl header 0)
    {pos : ℕ} (hfirst : findHashOption header header.length 20 = some pos) :
    ScansAgree header pos ↔ Hops header 20 pos := by
  have hihl : ihl header 0 < 16 := Nat.mod_lt _ (by omega)
  obtain ⟨hpos, hash⟩ := findHashOption_spec hfirst
  have hfit := (isHashOption_iff.mp hash).2.2
  unfold ScansAgree
  dsimp only
  generalize hnew : UInt8.ofNat (header.length / 4) - 9 = newIhl
  have hnewLen : newIhl.toNat * 4 = header.length - 36 := by
    rw [← hnew, UInt8.toNat_sub, UInt8.toNat_ofNat']
    simp only [UInt8.reduceToNat]
    omega
  rw [removeHashOption_eq, restoreFields_length, removalOffset_restoreFields _ _ _ (by omega)]
  constructor
  · rintro ⟨hsecond, -⟩
    exact removalOffset_hops hsecond
  · intro hops
    have hsecond := removalOffset_of_hops hops (by omega) le_rfl hash (n := header.length) (by omega)
    rw [hsecond]
    refine ⟨rfl, rfl, ?_⟩
    have hcut : ((restoreFields header newIhl).take pos ++
        (restoreFields header newIhl).drop (pos + 36)).length = newIhl.toNat * 4 := by
      rw [List.length_append, List.length_take, List.length_drop, restoreFields_length, hnewLen]
      omega
    exact List.take_left' hcut

/-- A header of 56 bytes whose only option is the hash option. -/
def plainOptionHeader : List UInt8 :=
  [0x4E, 0, 0, 56, 0, 0, 0, 0, 64, 17, 0, 0, 10, 0, 0, 1, 10, 0, 0, 2] ++
    optionBytes (Vector.replicate 32 7)

theorem scansAgree_plainOption : ScansAgree plainOptionHeader 20 :=
  (scansAgree_iff (by decide) (by decide +kernel)).mpr (.here 20)

/-- A header of 60 bytes with a NOP before the hash option. -/
def nopOptionHeader : List UInt8 :=
  [0x4F, 0, 0, 60, 0, 0, 0, 0, 64, 17, 0, 0, 10, 0, 0, 1, 10, 0, 0, 2] ++
    1 :: (optionBytes (Vector.replicate 32 7) ++ [0, 0, 0])

theorem not_scansAgree_nopOption :
    findHashOption nopOptionHeader nopOptionHeader.length 20 = some 21 ∧
      ¬ ScansAgree nopOptionHeader 21 := by
  constructor
  · decide +kernel
  · rintro ⟨hsecond, -⟩
    revert hsecond
    decide +kernel

/-! ### The bytes that are read -/

/-- The bytes at the packet pointer: the captured ones, and whatever lies behind them. -/
def memory (packet : List UInt8) (beyond : ℕ → UInt8) (i : ℕ) : UInt8 :=
  packet.getD i (beyond i)

def bytesFrom (mem : ℕ → UInt8) (start n : ℕ) : List UInt8 :=
  (List.range n).map fun i => mem (start + i)

/-- The read of the length byte in the test for the hash option. -/
def lengthReads (header : List UInt8) (pos : ℕ) : List ℕ :=
  if byteAt header pos = ipOptHashId ∧ pos + 1 < header.length then [pos + 1] else []

/-- The offsets into the header that the first scan reads. -/
def scanReads (header : List UInt8) : ℕ → ℕ → List ℕ
  | 0, _ => []
  | n + 1, pos =>
      if pos < header.length then
        if byteAt header pos = 0 then [pos]
        else if byteAt header pos = 1 then pos :: scanReads header n (pos + 1)
        else if isHashOption header pos then pos :: lengthReads header pos
        else if pos + 1 ≥ header.length then pos :: lengthReads header pos
        else
          pos :: lengthReads header pos ++
            (pos + 1) :: scanReads header n (pos + optionStep header pos)
      else []

/-- The fields that `dump_ip_header` prints cover the fixed header; then come the options. -/
def dumpReads (hl : ℕ) : List ℕ :=
  List.range' 14 20 ++ if hl > 5 then List.range' 34 ((hl - 5) * 4) else []

/-- The offsets into the packet that a call of `packet_handler` reads. Behind a hash option that is
found, the header is copied and the 32 bytes of the hash are printed and compared. -/
def handlerReads (mem : ℕ → UInt8) : List ℕ :=
  [12, 13] ++
    if bpfNtohs (load16 (bytesFrom mem 0 14) 12) ≠ ethPIp then []
    else
      let hl := ihl (bytesFrom mem 14 1) 0
      let header := bytesFrom mem 14 (hl * 4)
      14 :: dumpReads hl ++
        if hl ≤ 5 then []
        else
          (scanReads header header.length 20).map (14 + ·) ++
            match findHashOption header header.length 20 with
            | none => []
            | some pos => List.range' 14 (hl * 4) ++ List.range' (14 + pos + 4) 32

/-- Not an IP packet, or one whose whole header was captured. -/
def HeaderCaptured (packet : List UInt8) : Prop :=
  bpfNtohs (load16 packet 12) ≠ ethPIp ∨
    (34 ≤ packet.length ∧ 14 + 4 * ihl packet 14 ≤ packet.length)

lemma lengthReads_lt {header : List UInt8} {pos i : ℕ} (hi : i ∈ lengthReads header pos) :
    i < header.length := by
  unfold lengthReads at hi
  split_ifs at hi with hid
  · rw [List.mem_singleton.mp hi]
    exact hid.2
  · simp at hi

/-- The scan stays inside the header whatever the option bytes are. -/
lemma scanReads_lt {header : List UInt8} {n pos i : ℕ} (hi : i ∈ scanReads header n pos) :
    i < header.length := by
  induction n generalizing pos with
  | zero => simp [scanReads] at hi
  | succ n ih =>
    unfold scanReads at hi
    split_ifs at hi with hlt hzero hone hash hend
    · rw [List.mem_singleton.mp hi]
      exact hlt
    · rcases List.mem_cons.mp hi with rfl | hi
      · exact hlt
      · exact ih hi
    · rcases List.mem_cons.mp hi with rfl | hi
      · exact hlt
      · exact lengthReads_lt hi
    · rcases List.mem_cons.mp hi with rfl | hi
      · exact hlt
      · exact lengthReads_lt hi
    · rcases List.mem_append.mp hi with hi | hi
      · rcases List.mem_cons.mp hi with rfl | hi
        · exact hlt
        · exact lengthReads_lt hi
      · rcases List.mem_cons.mp hi with rfl | hi
        · omega
        · exact ih hi
    · simp at hi

lemma bytesFrom_length (mem : ℕ → UInt8) (start n : ℕ) : (bytesFrom mem start n).length = n := by
  simp [bytesFrom]

lemma byteAt_bytesFrom (packet : List UInt8) (beyond : ℕ → UInt8) {start n i : ℕ} (hi : i < n)
    (hcap : start + i < packet.length) :
    byteAt (bytesFrom (memory packet beyond) start n) i = byteAt packet (start + i) := by
  have hget : (bytesFrom (memory packet beyond) start n)[i]? =
      some (memory packet beyond (start + i)) := by
    simp [bytesFrom, hi]
  rw [byteAt, byteAt, List.getD_eq_getElem?_getD, hget, Option.getD_some, memory,
    List.getD_eq_getElem _ _ hcap, List.getD_eq_getElem _ _ hcap]

/-- The reads of a call on an IP packet. -/
lemma mem_handlerReads {mem : ℕ → UInt8} (hproto : bpfNtohs (load16 (bytesFrom mem 0 14) 12) = ethPIp)
    {i : ℕ} (hi : i ∈ handlerReads mem) :
    i < 34 ∨ i < 14 + 4 * ihl (bytesFrom mem 14 1) 0 := by
  unfold handlerReads at hi
  rw [if_neg (not_not.mpr hproto)] at hi
  generalize ihl (bytesFrom mem 14 1) 0 = hl at hi ⊢
  dsimp only at hi
  rcases List.mem_append.mp hi with hi | hi
  · simp only [List.mem_cons, List.not_mem_nil, or_false] at hi
    omega
  rcases List.mem_append.mp hi with hi | hi
  · rcases List.mem_cons.mp hi with rfl | hi
    · omega
    · unfold dumpReads at hi
      rcases List.mem_append.mp hi with hi | hi
      · rw [List.mem_range'_1] at hi
        omega
      · split_ifs at hi with h5
        · rw [List.mem_range'_1] at hi
          omega
        · simp at hi
  · split_ifs at hi with h5
    · simp at hi
    rcases List.mem_append.mp hi with hi | hi
    · obtain ⟨j, hj, rfl⟩ := List.mem_map.mp hi
      have hlt := scanReads_lt hj
      rw [bytesFrom_length] at hlt
      omega
    · cases hfind : findHashOption (bytesFrom mem 14 (hl * 4)) (bytesFrom mem 14 (hl * 4)).length 20 with
      | none =>
        rw [hfind] at hi
        simp at hi
      | some pos =>
        rw [hfind] at hi
        have hfit := (isHashOption_iff.mp (findHashOption_spec hfind).2).2.2
        rw [bytesFrom_length] at hfit
        rcases List.mem_append.mp hi with hi | hi
        · rw [List.mem_range'_1] at hi
          omega
        · rw [List.mem_range'_1] at hi
          omega

/-- The dump alone reads the fixed header and all options. -/
lemma dumpReads_subset {mem : ℕ → UInt8}
    (hproto : bpfNtohs (load16 (bytesFrom mem 0 14) 12) = ethPIp) {i : ℕ}
    (hi : i ∈ dumpReads (ihl (bytesFrom mem 14 1) 0)) : i ∈ handlerReads mem := by
  unfold handlerReads
  rw [if_neg (not_not.mpr hproto)]
  exact List.mem_append_right _ (List.mem_append_left _ (List.mem_cons_of_mem _ hi))

/-- For every packet of at least 14 captured bytes and every memory behind it: all reads are of
captured bytes exactly when the packet is no IP packet or its whole header was captured. -/
theorem handlerReads_captured_iff (packet : List UInt8) (beyond : ℕ → UInt8)
    (h14 : 14 ≤ packet.length) :
    (∀ i ∈ handlerReads (memory packet beyond), i < packet.length) ↔ HeaderCaptured packet := by
  have hload : load16 (bytesFrom (memory packet beyond) 0 14) 12 = load16 packet 12 := by
    rw [load16, load16, byteAt_bytesFrom packet beyond (by omega) (by omega),
      byteAt_bytesFrom packet beyond (by omega) (by omega)]
  have hihl : 15 ≤ packet.length →
      ihl (bytesFrom (memory packet beyond) 14 1) 0 = ihl packet 14 := by
    intro h15
    rw [ihl, ihl, byteAt_bytesFrom packet beyond (by omega) (by omega)]
  unfold HeaderCaptured
  by_cases hproto : bpfNtohs (load16 packet 12) = ethPIp
  · rw [← hload] at hproto
    constructor
    · intro hreads
      refine Or.inr ?_
      have h33 : 33 < packet.length :=
        hreads 33 (dumpReads_subset hproto (List.mem_append_left _ (by decide)))
      refine ⟨by omega, ?_⟩
      by_cases h5 : ihl packet 14 > 5
      · have hlast : 34 + (ihl packet 14 - 5) * 4 - 1 < packet.length := by
          refine hreads _ (dumpReads_subset hproto (List.mem_append_right _ ?_))
          rw [hihl (by omega), if_pos h5, List.mem_range'_1]
          omega
        omega
      · omega
    · rintro (hno | ⟨h34, hheader⟩) i hi
      · rw [hload] at hproto
        exact absurd hproto hno
      · have hlt := mem_handlerReads hproto hi
        rw [hihl (by omega)] at hlt
        omega
  · refine iff_of_true (fun i hi => ?_) (Or.inl hproto)
    unfold handlerReads at hi
    rw [hload, if_pos hproto] at hi
    simp only [List.append_nil, List.mem_cons, List.not_mem_nil, or_false] at hi
    omega

/-- The handler of the model gets stuck on the packets for which a read leaves the capture. -/
theorem packetHandler_isSome_iff (sha256 : List UInt8 → List UInt8) {packet : List UInt8}
    (h14 : 14 ≤ packet.length) : (packetHandler sha256 packet).isSome ↔ HeaderCaptured packet := by
  unfold HeaderCaptured packetHandler dumpIpHeader
  rw [readRange_some (show 12 + 2 ≤ packet.length by omega), Option.bind_eq_bind, Option.bind_some]
  by_cases hproto : bpfNtohs (load16 packet 12) = ethPIp
  · simp only [hproto, ne_eq, not_true_eq_false, if_false, false_or]
    by_cases h34 : 34 ≤ packet.length
    · rw [readRange_some (show 14 + 1 ≤ packet.length by omega),
        readRange_some (show 14 + 20 ≤ packet.length by omega)]
      by_cases h5 : ihl packet 14 > 5
      · by_cases hfit : 14 + 4 * ihl packet 14 ≤ packet.length
        · rw [readRange_some (show 34 + (ihl packet 14 - 5) * 4 ≤ packet.length by omega),
            readRange_some (show 14 + ihl packet 14 * 4 ≤ packet.length by omega)]
          simp only [Option.bind_eq_bind, Option.bind_some, if_pos h5, if_neg (not_le.mpr h5), h34,
            hfit]
          split <;> simp
        · rw [readRange_none (show ¬ 34 + (ihl packet 14 - 5) * 4 ≤ packet.length by omega)]
          simp [h5, hfit]
      · have hfit : 14 + 4 * ihl packet 14 ≤ packet.length := by omega
        simp [h5, not_lt.mp h5, h34, hfit]
    · rw [readRange_none (show ¬ 14 + 20 ≤ packet.length by omega)]
      simp [h34]
  · simp [hproto]

/-- The header of `sampleFrame`, its length said to be 60 bytes, of which twenty were captured. -/
def truncatedFrame : List UInt8 := XdpProgram.sampleFrame.set 14 0x4F

theorem handlerReads_captured_sample : 14 ≤ XdpProgram.sampleFrame.length ∧
    ∀ i ∈ handlerReads (memory XdpProgram.sampleFrame fun _ => 0), i < XdpProgram.sampleFrame.length :=
  ⟨by decide, (handlerReads_captured_iff XdpProgram.sampleFrame (fun _ => 0) (by decide)).mpr
    (Or.inr (by decide))⟩

theorem handlerReads_truncated : 14 ≤ truncatedFrame.length ∧
    ¬ ∀ i ∈ handlerReads (memory truncatedFrame fun _ => 0), i < truncatedFrame.length := by
  refine ⟨by decide, fun hreads => ?_⟩
  have h34 : 34 < truncatedFrame.length :=
    hreads 34 (dumpReads_subset (by decide) (List.mem_append_right _ (by decide)))
  exact absurd h34 (by decide)

end HashCompress.OptionScans
