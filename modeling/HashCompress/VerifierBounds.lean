import HashCompress.OptionScans
import HashCompress.TracedLoop

/-!
# Arithmetic and buffers of the verifier

The loops of `packet_handler` over the options and the copies behind them, on the 60 bytes at the
address of the IP header. Offsets stand for the pointers `options` and `mod_options`, and `stop` for
`end_options` and `mod_end_options`. Nothing in the code bounds `new_ihl`; that it does not wrap
follows from where the first loop can stop.
-/
namespace HashCompress.VerifierBounds

open KeyedHash ParsingHelpers OptionInsert HashVerifier PacketPreservation OptionScans TracedLoop
open StoreLoop

/-! ### The two loops -/

/-- A turn of a scan: the offsets it reads, then the next offset or where the option was found. -/
abbrev ScanTurn := Turn ℕ ℕ (Option ℕ)

/-- The test for the hash option reads the length byte only behind the option's type byte. -/
def testReads (mem : List UInt8) (stop pos : ℕ) : List ℕ :=
  if byteAt mem pos = ipOptHashId ∧ pos + 1 < stop then [pos, pos + 1] else [pos]

/-- The part that both loops have: the test for the hash option, then the move to the next one. -/
def optionTurn (mem : List UInt8) (stop pos : ℕ) : ScanTurn :=
  if (byteAt mem pos = ipOptHashId ∧ pos + 1 < stop) ∧
      (byteAt mem (pos + 1) = 36 ∧ pos + 36 ≤ stop) then ⟨testReads mem stop pos, .inr (some pos)⟩
  else if pos + 1 ≥ stop then ⟨testReads mem stop pos, .inr none⟩
  else ⟨testReads mem stop pos ++ [pos + 1], .inl (pos + optionStep mem pos)⟩

/-- A turn of the first loop, which looks for the received hash. -/
def parseTurn (mem : List UInt8) (stop pos : ℕ) : ScanTurn :=
  if pos < stop then
    if byteAt mem pos = 0 then ⟨[pos], .inr none⟩
    else if byteAt mem pos = 1 then ⟨[pos], .inl (pos + 1)⟩
    else optionTurn mem stop pos
  else ⟨[], .inr none⟩

/-- A turn of the second loop, which looks for the option to remove and knows neither NOP nor end of
options. -/
def removeTurn (mem : List UInt8) (stop pos : ℕ) : ScanTurn :=
  if pos < stop then optionTurn mem stop pos else ⟨[], .inr none⟩

/-- What every turn of a scan does, wherever the length bytes lead: it reads below `stop` and not
before its own offset, it moves forward, and it finds an option only where all 36 bytes fit. -/
structure TurnWithin (turn : ScanTurn) (stop pos : ℕ) : Prop where
  reads : ∀ i ∈ turn.accesses, pos ≤ i ∧ i < stop
  forward : ∀ pos', turn.next = .inl pos' → pos < pos' ∧ pos < stop
  fits : ∀ found, turn.next = .inr (some found) → found = pos ∧ pos + 36 ≤ stop

section Within

variable {reads : List ℕ} {stop pos : ℕ} (hreads : ∀ i ∈ reads, pos ≤ i ∧ i < stop)

include hreads

lemma within_none : TurnWithin ⟨reads, .inr none⟩ stop pos where
  reads := hreads
  forward pos' h := by cases h
  fits found h := by cases h

lemma within_found (hfit : pos + 36 ≤ stop) : TurnWithin ⟨reads, .inr (some pos)⟩ stop pos where
  reads := hreads
  forward pos' h := by cases h
  fits found h := by
    cases h
    exact ⟨rfl, hfit⟩

lemma within_next {step : ℕ} (hstep : 0 < step) (hpos : pos < stop) :
    TurnWithin ⟨reads, .inl (pos + step)⟩ stop pos where
  reads := hreads
  forward pos' h := by
    cases h
    omega
  fits found h := by cases h

end Within

lemma testReads_within (mem : List UInt8) {stop pos : ℕ} (hpos : pos < stop) :
    ∀ i ∈ testReads mem stop pos, pos ≤ i ∧ i < stop := by
  intro i hi
  unfold testReads at hi
  split_ifs at hi with hid
  · simp only [List.mem_cons, List.not_mem_nil, or_false] at hi
    omega
  · rw [List.mem_singleton.mp hi]
    omega

lemma optionTurn_within (mem : List UInt8) {stop pos : ℕ} (hpos : pos < stop) :
    TurnWithin (optionTurn mem stop pos) stop pos := by
  have htest := testReads_within mem hpos
  unfold optionTurn
  split_ifs with hash hend
  · exact within_found htest hash.2.2
  · exact within_none htest
  · refine within_next (fun i hi => ?_) (optionStep_pos mem pos) hpos
    rcases List.mem_append.mp hi with hi | hi
    · exact htest i hi
    · rw [List.mem_singleton.mp hi]
      omega

lemma removeTurn_within (mem : List UInt8) (stop pos : ℕ) :
    TurnWithin (removeTurn mem stop pos) stop pos := by
  unfold removeTurn
  split_ifs with hpos
  · exact optionTurn_within mem hpos
  · exact within_none (by simp)

lemma parseTurn_within (mem : List UInt8) (stop pos : ℕ) :
    TurnWithin (parseTurn mem stop pos) stop pos := by
  unfold parseTurn
  split_ifs with hpos hzero hone
  · exact within_none (by simp [hpos])
  · exact within_next (by simp [hpos]) one_pos hpos
  · exact optionTurn_within mem hpos
  · exact within_none (by simp)

section Scan

variable {turn : ℕ → ScanTurn} {stop : ℕ}

lemma scan_ends (hturn : ∀ pos, TurnWithin (turn pos) stop pos) (pos : ℕ) :
    ∃ reads found, Runs turn pos reads found := by
  apply exists_runs (fun pos => stop - pos)
  intro pos pos' hnext
  have hforward := (hturn pos).forward pos' hnext
  omega

/-- The cursor never goes back behind the start of the options. -/
lemma scan_respects (hturn : ∀ pos, TurnWithin (turn pos) stop pos) (start : ℕ) :
    Respects turn (fun pos => start ≤ pos) (fun i => start ≤ i ∧ i < stop)
      (fun found => ∀ pos ∈ found, start ≤ pos ∧ pos + 36 ≤ stop) where
  accesses pos hpos i hi := by
    have hread := (hturn pos).reads i hi
    omega
  again pos pos' hpos hnext := by
    have hforward := (hturn pos).forward pos' hnext
    omega
  leave pos found hpos hnext q hq := by
    rw [Option.mem_def] at hq
    obtain ⟨rfl, hfit⟩ := (hturn pos).fits q (hq ▸ hnext)
    exact ⟨hpos, hfit⟩

end Scan

/-! ### The copies behind the first loop -/

/-- The 60 bytes at `ip_header`. The header takes as many of them as its IHL field says. -/
abbrev HeaderBytes := Vector UInt8 60

def ipHeaderLen (ip : HeaderBytes) : ℕ := ihl ip.toList 0 * 4

/-- The copy of the whole header into `original_header`. -/
def headerCopy (ip : HeaderBytes) : BlockCopy := ⟨0, 0, ipHeaderLen ip⟩

/-- `original_header` after the copy. Behind the header it keeps what the array held before. -/
def originalHeader (ip stack : HeaderBytes) : List UInt8 :=
  (headerCopy ip).apply stack.toList ip.toList

/-- `new_ihl`, an 8-bit subtraction from the IHL field of the copy. -/
def newIhl (ip stack : HeaderBytes) : UInt8 := UInt8.ofNat (ihl (originalHeader ip stack) 0) - 36 / 4

def trueHeaderSize (ip stack : HeaderBytes) : ℕ := (newIhl ip stack).toNat * 4

/-- The copy as the second loop sees it. -/
def modifiedHeader (ip stack : HeaderBytes) : List UInt8 :=
  restoreFields (originalHeader ip stack) (newIhl ip stack)

/-- The `memmove` over the option found at `pos`, made if bytes remain behind the option. `remaining`
is a `size_t`. -/
def optionMove (ip : HeaderBytes) (pos : ℕ) : Option BlockCopy :=
  let remaining := UInt64.ofNat (ipHeaderLen ip) - UInt64.ofNat (pos + 36)
  if remaining > 0 then some ⟨pos, pos + 36, remaining.toNat⟩ else none

/-- `original_header` behind the second loop, which has found the option at `removed` or not at all. -/
def strippedHeader (ip stack : HeaderBytes) (removed : Option ℕ) : List UInt8 :=
  match removed.bind (optionMove ip) with
  | none => modifiedHeader ip stack
  | some c => c.apply (modifiedHeader ip stack) (modifiedHeader ip stack)

/-- The copy of `SECRET_KEY` into `buffer` of `compute_keyed_hash`. -/
def keyCopy : BlockCopy := ⟨0, 0, secretKey.length⟩

/-- The copy of the data behind the key. -/
def dataCopy (dataLen : ℕ) : BlockCopy := ⟨secretKey.length, 0, dataLen⟩

/-- The bytes of `buffer` that `compute_keyed_hash` passes on to the hash function. -/
def keyedBuffer (buffer : Vector UInt8 128) (data : List UInt8) (dataLen : ℕ) : List UInt8 :=
  ((dataCopy dataLen).apply (keyCopy.apply buffer.toList secretKey) data).take
    (secretKey.length + dataLen)

def ParseRuns (ip : HeaderBytes) : List ℕ → Option ℕ → Prop :=
  Runs (parseTurn ip.toList (ipHeaderLen ip)) 20

def RemoveRuns (ip stack : HeaderBytes) : List ℕ → Option ℕ → Prop :=
  Runs (removeTurn (modifiedHeader ip stack) (ipHeaderLen ip)) 20

/-- A loop ends, and all that it reads are option bytes of the header. -/
def EndsWithin (runs : List ℕ → Option ℕ → Prop) (ip : HeaderBytes) : Prop :=
  (∃ reads found, runs reads found) ∧
    ∀ reads found, runs reads found → ∀ i ∈ reads, 20 ≤ i ∧ i < ipHeaderLen ip

/-- The sizes and copies behind a first loop that has found a hash option at `pos`. -/
structure RemovalSafe (ip stack : HeaderBytes) (pos : ℕ) : Prop where
  ihl_eq : ihl ip.toList 0 = 14 ∨ ihl ip.toList 0 = 15
  noUnderflow : (newIhl ip stack).toNat + 9 = ihl ip.toList 0
  newIhl_eq : newIhl ip stack = 5 ∨ newIhl ip stack = 6
  size_eq : trueHeaderSize ip stack = 20 ∨ trueHeaderSize ip stack = 24
  size_le : trueHeaderSize ip stack ≤ ipHeaderLen ip
  received : 20 ≤ pos + 4 ∧ pos + 4 + 32 ≤ ipHeaderLen ip
  copied : (headerCopy ip).Within 60 60
  moved : ∀ reads removed, RemoveRuns ip stack reads (some removed) →
    ∀ c ∈ optionMove ip removed, c.Within 60 60
  hashed : keyCopy.Within 128 16 ∧ (dataCopy (trueHeaderSize ip stack)).Within 128 60

lemma ipHeaderLen_le (ip : HeaderBytes) : ipHeaderLen ip ≤ 60 := by
  have hihl : ihl ip.toList 0 < 16 := Nat.mod_lt _ (by omega)
  unfold ipHeaderLen
  omega

/-- Ten of fifteen words are for the options, nine of them for the hash option: the header with it
has 14 or 15 words. -/
lemma ihl_of_fits {words pos : ℕ} (hwords : words < 16) (hpos : 20 ≤ pos)
    (hfit : pos + 36 ≤ words * 4) : words = 14 ∨ words = 15 := by
  omega

lemma headerCopy_within (ip : HeaderBytes) : (headerCopy ip).Within 60 60 := by
  have hle := ipHeaderLen_le ip
  simp only [BlockCopy.Within, headerCopy]
  omega

lemma headerCopy_lists (ip stack : HeaderBytes) :
    (headerCopy ip).Within stack.toList.length ip.toList.length := by
  simpa only [Vector.length_toList] using headerCopy_within ip

lemma take_originalHeader (ip stack : HeaderBytes) :
    (originalHeader ip stack).take (ipHeaderLen ip) = ip.toList.take (ipHeaderLen ip) := by
  have htake := BlockCopy.take_apply (headerCopy_lists ip stack)
  simpa [headerCopy, originalHeader] using htake

lemma ihl_originalHeader {ip : HeaderBytes} (stack : HeaderBytes) (h : 0 < ihl ip.toList 0) :
    ihl (originalHeader ip stack) 0 = ihl ip.toList 0 := by
  have hpos : 0 < ipHeaderLen ip := by
    unfold ipHeaderLen
    omega
  unfold ihl
  rw [← byteAt_take _ hpos, take_originalHeader, byteAt_take _ hpos]

/-- Where the option fits, `remaining` does not wrap. -/
lemma optionMove_eq {ip : HeaderBytes} {pos : ℕ} (hfit : pos + 36 ≤ ipHeaderLen ip) :
    optionMove ip pos =
      if pos + 36 < ipHeaderLen ip then some ⟨pos, pos + 36, ipHeaderLen ip - (pos + 36)⟩
      else none := by
  have hle := ipHeaderLen_le ip
  have hremaining : (UInt64.ofNat (ipHeaderLen ip) - UInt64.ofNat (pos + 36)).toNat =
      ipHeaderLen ip - (pos + 36) := by
    rw [UInt64.toNat_sub, UInt64.toNat_ofNat', UInt64.toNat_ofNat']
    omega
  have hpositive : UInt64.ofNat (ipHeaderLen ip) - UInt64.ofNat (pos + 36) > 0 ↔
      pos + 36 < ipHeaderLen ip := by
    rw [gt_iff_lt, UInt64.lt_iff_toNat_lt, hremaining]
    exact tsub_pos_iff_lt
  unfold optionMove
  dsimp only
  rw [hremaining]
  exact if_congr hpositive rfl rfl

lemma optionMove_within {ip : HeaderBytes} {pos : ℕ} (hfit : pos + 36 ≤ ipHeaderLen ip) :
    ∀ c ∈ optionMove ip pos, c.Within 60 60 := by
  intro c hc
  have hle := ipHeaderLen_le ip
  rw [optionMove_eq hfit] at hc
  split_ifs at hc with hremain
  · rw [Option.mem_some_iff] at hc
    subst hc
    simp only [BlockCopy.Within]
    omega
  · cases hc

lemma newIhl_toNat {ip : HeaderBytes} (stack : HeaderBytes) (h : 9 ≤ ihl ip.toList 0) :
    (newIhl ip stack).toNat + 9 = ihl ip.toList 0 := by
  have hihl : ihl ip.toList 0 < 16 := Nat.mod_lt _ (by omega)
  have hoption : ((36 : UInt8) / 4).toNat = 9 := rfl
  rw [newIhl, ihl_originalHeader stack (by omega), UInt8.toNat_sub, UInt8.toNat_ofNat', hoption]
  omega

lemma parse_found {ip : HeaderBytes} {reads : List ℕ} {pos : ℕ} (h : ParseRuns ip reads (some pos)) :
    20 ≤ pos ∧ pos + 36 ≤ ipHeaderLen ip :=
  (h.respects (scan_respects (parseTurn_within ip.toList (ipHeaderLen ip)) 20) le_rfl).2 pos rfl

lemma remove_found {ip stack : HeaderBytes} {reads : List ℕ} {pos : ℕ}
    (h : RemoveRuns ip stack reads (some pos)) : 20 ≤ pos ∧ pos + 36 ≤ ipHeaderLen ip :=
  (h.respects (scan_respects (removeTurn_within (modifiedHeader ip stack) (ipHeaderLen ip)) 20)
    le_rfl).2 pos rfl

/-- Any loop of turns that stay inside the options ends, whatever the length bytes are. -/
lemma endsWithin {turn : ℕ → ScanTurn} {ip : HeaderBytes}
    (hturn : ∀ pos, TurnWithin (turn pos) (ipHeaderLen ip) pos) : EndsWithin (Runs turn 20) ip := by
  refine ⟨scan_ends hturn 20, fun reads found hruns => ?_⟩
  exact (hruns.respects (scan_respects hturn 20) le_rfl).1

lemma removalSafe {ip : HeaderBytes} (stack : HeaderBytes) {reads : List ℕ} {pos : ℕ}
    (h : ParseRuns ip reads (some pos)) : RemovalSafe ip stack pos := by
  obtain ⟨hpos, hfit⟩ := parse_found h
  have hle := ipHeaderLen_le ip
  have hihl : ihl ip.toList 0 = 14 ∨ ihl ip.toList 0 = 15 :=
    ihl_of_fits (Nat.mod_lt _ (by omega)) hpos hfit
  have hnew := newIhl_toNat stack (by omega : 9 ≤ ihl ip.toList 0)
  have hlen : ipHeaderLen ip = ihl ip.toList 0 * 4 := rfl
  have hsize : trueHeaderSize ip stack = (newIhl ip stack).toNat * 4 := rfl
  exact {
    ihl_eq := hihl
    noUnderflow := hnew
    newIhl_eq := by
      rw [← UInt8.toNat_inj, ← UInt8.toNat_inj]
      simp only [UInt8.reduceToNat]
      omega
    size_eq := by omega
    size_le := by omega
    received := by omega
    copied := headerCopy_within ip
    moved := fun _ _ hremove => optionMove_within (remove_found hremove).2
    hashed := by
      have hkey : secretKey.length = 16 := rfl
      simp only [BlockCopy.Within, keyCopy, dataCopy]
      omega }

/-- For all 60 bytes at the header's address, and whatever the stack held: both loops end and read
only option bytes of the header, and behind a hash option that is found no subtraction wraps and no
copy leaves its arrays. The test for an IHL field above 5 is not needed for it. -/
theorem packetHandler_bounds (ip stack : HeaderBytes) :
    EndsWithin (ParseRuns ip) ip ∧ EndsWithin (RemoveRuns ip stack) ip ∧
      ∀ reads pos, ParseRuns ip reads (some pos) → RemovalSafe ip stack pos :=
  ⟨endsWithin (parseTurn_within ip.toList (ipHeaderLen ip)),
    endsWithin (removeTurn_within (modifiedHeader ip stack) (ipHeaderLen ip)),
    fun _ _ hparse => removalSafe stack hparse⟩

/-- The header of 60 bytes with a NOP before the hash option. -/
def nopHeader : HeaderBytes := ⟨nopOptionHeader.toArray, by decide⟩

theorem packetHandler_bounds_nopHeader : 5 < ihl nopHeader.toList 0 ∧
    ParseRuns nopHeader [20, 21, 22] (some 21) ∧
      RemovalSafe nopHeader (Vector.replicate 60 0xAA) 21 := by
  have hnop : parseTurn nopHeader.toList (ipHeaderLen nopHeader) 20 = ⟨[20], .inl 21⟩ := rfl
  have hash : parseTurn nopHeader.toList (ipHeaderLen nopHeader) 21 = ⟨[21, 22], .inr (some 21)⟩ := rfl
  have hruns : ParseRuns nopHeader [20, 21, 22] (some 21) := .of_again hnop (.of_leave hash)
  exact ⟨by decide, hruns, (packetHandler_bounds nopHeader (Vector.replicate 60 0xAA)).2.2 _ 21 hruns⟩

/-! ### The handler on the arrays -/

section Fuel

variable {mem : List UInt8} {stop : ℕ} (hstop : stop ≤ mem.length)

include hstop

lemma isHashOption_take {pos : ℕ} : isHashOption (mem.take stop) pos = true ↔
    (byteAt mem pos = ipOptHashId ∧ pos + 1 < stop) ∧
      (byteAt mem (pos + 1) = 36 ∧ pos + 36 ≤ stop) := by
  rw [isHashOption_iff, List.length_take, Nat.min_eq_left hstop]
  constructor
  · rintro ⟨htype, hlen, hfit⟩
    rw [byteAt_take mem (by omega)] at htype hlen
    exact ⟨⟨htype, by omega⟩, hlen, hfit⟩
  · rintro ⟨⟨htype, -⟩, hlen, hfit⟩
    rw [byteAt_take mem (by omega), byteAt_take mem (by omega)]
    exact ⟨htype, hlen, hfit⟩

lemma testReads_take {pos : ℕ} (hpos : pos < stop) :
    testReads mem stop pos = pos :: lengthReads (mem.take stop) pos := by
  unfold testReads lengthReads
  rw [List.length_take, Nat.min_eq_left hstop, byteAt_take mem hpos]
  split_ifs <;> rfl

/-- In the header alone a turn is what `findHashOption` and `removalOffset` do. -/
lemma optionTurn_take {pos : ℕ} (hpos : pos < stop) :
    optionTurn mem stop pos =
      if isHashOption (mem.take stop) pos then
        ⟨pos :: lengthReads (mem.take stop) pos, .inr (some pos)⟩
      else if pos + 1 ≥ stop then ⟨pos :: lengthReads (mem.take stop) pos, .inr none⟩
      else ⟨pos :: lengthReads (mem.take stop) pos ++ [pos + 1],
        .inl (pos + optionStep (mem.take stop) pos)⟩ := by
  unfold optionTurn
  rw [testReads_take hstop hpos]
  refine if_congr (isHashOption_take hstop).symm rfl ?_
  split_ifs with hend
  · rfl
  · have hstep : optionStep (mem.take stop) pos = optionStep mem pos := by
      unfold optionStep
      rw [byteAt_take mem (by omega)]
    rw [hstep]

/-- Every turn moves on by a byte at least, so the bytes that are left are turns enough. -/
lemma parse_runs_fuel (n : ℕ) {pos : ℕ} (hn : stop ≤ pos + n) :
    Runs (parseTurn mem stop) pos (scanReads (mem.take stop) n pos)
      (findHashOption (mem.take stop) n pos) := by
  have hlen : (mem.take stop).length = stop := List.length_take_of_le hstop
  induction n generalizing pos with
  | zero => exact .of_leave (if_neg (by omega))
  | succ n ih =>
    unfold scanReads findHashOption
    rw [hlen]
    by_cases hpos : pos < stop
    · have hturn : parseTurn mem stop pos = if byteAt mem pos = 0 then ⟨[pos], .inr none⟩
          else if byteAt mem pos = 1 then ⟨[pos], .inl (pos + 1)⟩
          else optionTurn mem stop pos := if_pos hpos
      rw [optionTurn_take hstop hpos] at hturn
      have hstep := optionStep_pos (mem.take stop) pos
      rw [if_pos hpos, if_pos hpos, byteAt_take mem hpos]
      split_ifs at hturn ⊢ with hzero hone hash hend
      · exact .of_leave hturn
      · exact .of_again hturn (ih (by omega))
      · exact .of_leave hturn
      · exact .of_leave hturn
      · rw [List.append_cons]
        exact .of_again hturn (ih (by omega))
    · rw [if_neg hpos, if_neg hpos]
      exact .of_leave (if_neg hpos)

lemma remove_runs_fuel (n : ℕ) {pos : ℕ} (hn : stop ≤ pos + n) :
    ∃ reads, Runs (removeTurn mem stop) pos reads (removalOffset (mem.take stop) n pos) := by
  have hlen : (mem.take stop).length = stop := List.length_take_of_le hstop
  induction n generalizing pos with
  | zero => exact ⟨[], .of_leave (if_neg (by omega))⟩
  | succ n ih =>
    unfold removalOffset
    rw [hlen]
    by_cases hpos : pos < stop
    · have hturn : removeTurn mem stop pos = optionTurn mem stop pos := if_pos hpos
      rw [optionTurn_take hstop hpos] at hturn
      have hstep := optionStep_pos (mem.take stop) pos
      rw [if_pos hpos]
      split_ifs at hturn ⊢ with hash hend
      · exact ⟨_, .of_leave hturn⟩
      · exact ⟨_, .of_leave hturn⟩
      · obtain ⟨reads, hrest⟩ := ih (show stop ≤ pos + optionStep (mem.take stop) pos + n by omega)
        exact ⟨_, .of_again hturn hrest⟩
    · rw [if_neg hpos]
      exact ⟨[], .of_leave (if_neg hpos)⟩

end Fuel

lemma take_restoreFields (header : List UInt8) (newIhl : UInt8) {n : ℕ} (hn : 12 ≤ n) :
    (restoreFields header newIhl).take n = restoreFields (header.take n) newIhl := by
  unfold restoreFields store16 load16
  dsimp only
  simp only [List.take_set]
  rw [byteAt_take header (by omega), ← List.take_set, byteAt_take _ (by omega),
    byteAt_take _ (by omega)]

section Arrays

variable {ip : HeaderBytes} (stack : HeaderBytes)

def headerBytes (ip : HeaderBytes) : List UInt8 := ip.toList.take (ipHeaderLen ip)

lemma headerBytes_length (ip : HeaderBytes) : (headerBytes ip).length = ipHeaderLen ip :=
  List.length_take_of_le (by rw [Vector.length_toList]; exact ipHeaderLen_le ip)

lemma parseRuns_iff {reads : List ℕ} {found : Option ℕ} :
    ParseRuns ip reads found ↔
      reads = scanReads (headerBytes ip) (headerBytes ip).length 20 ∧
        found = findHashOption (headerBytes ip) (headerBytes ip).length 20 := by
  have hstop : ipHeaderLen ip ≤ ip.toList.length := by
    rw [Vector.length_toList]
    exact ipHeaderLen_le ip
  have hruns : ParseRuns ip (scanReads (headerBytes ip) (headerBytes ip).length 20)
      (findHashOption (headerBytes ip) (headerBytes ip).length 20) :=
    parse_runs_fuel hstop _ (by rw [headerBytes_length]; omega)
  constructor
  · intro h
    exact h.unique hruns
  · rintro ⟨rfl, rfl⟩
    exact hruns

lemma modifiedHeader_length (ip : HeaderBytes) : (modifiedHeader ip stack).length = 60 := by
  rw [modifiedHeader, restoreFields_length, originalHeader,
    BlockCopy.apply_length (headerCopy_lists ip stack), Vector.length_toList]

lemma take_modifiedHeader (h : 12 ≤ ipHeaderLen ip) :
    (modifiedHeader ip stack).take (ipHeaderLen ip) =
      restoreFields (headerBytes ip) (newIhl ip stack) := by
  rw [modifiedHeader, take_restoreFields _ _ h, take_originalHeader, headerBytes]

lemma removeRuns_found {reads : List ℕ} {removed : Option ℕ}
    (hruns : RemoveRuns ip stack reads removed) :
    removed = removalOffset ((modifiedHeader ip stack).take (ipHeaderLen ip)) (ipHeaderLen ip) 20 := by
  have hstop : ipHeaderLen ip ≤ (modifiedHeader ip stack).length := by
    rw [modifiedHeader_length]
    exact ipHeaderLen_le ip
  obtain ⟨reads', hfuel⟩ := remove_runs_fuel hstop (ipHeaderLen ip)
    (show ipHeaderLen ip ≤ 20 + ipHeaderLen ip by omega)
  exact (hruns.unique hfuel).2

/-- The `memmove` in the array closes the gap as the list model has it. -/
lemma take_move {array : List UInt8} {len pos : ℕ} (hlen : len ≤ array.length)
    (hfit : pos + 36 ≤ len) :
    (BlockCopy.apply ⟨pos, pos + 36, len - (pos + 36)⟩ array array).take len =
      (array.take len).take pos ++ (array.take len).drop (pos + 36) ++
        (array.take len).drop (len - 36) := by
  have hwithin : BlockCopy.Within ⟨pos, pos + 36, len - (pos + 36)⟩ array.length array.length := by
    simp only [BlockCopy.Within]
    omega
  have happly := BlockCopy.take_apply_add hwithin 36
  dsimp only at happly
  rw [show pos + (len - (pos + 36)) + 36 = len by omega,
    show pos + (len - (pos + 36)) = len - 36 by omega] at happly
  rw [happly, List.take_take, Nat.min_eq_left (by omega), List.drop_take, List.drop_take,
    show len - (len - 36) = 36 by omega]

lemma take_strippedHeader {reads : List ℕ} {removed : Option ℕ}
    (hruns : RemoveRuns ip stack reads removed) :
    (strippedHeader ip stack removed).take (ipHeaderLen ip) =
      (removeHashOption ((modifiedHeader ip stack).take (ipHeaderLen ip)) (ipHeaderLen ip) 20).1 := by
  have hle : ipHeaderLen ip ≤ (modifiedHeader ip stack).length := by
    rw [modifiedHeader_length]
    exact ipHeaderLen_le ip
  have htake : ((modifiedHeader ip stack).take (ipHeaderLen ip)).length = ipHeaderLen ip :=
    List.length_take_of_le hle
  rw [removeHashOption_eq, ← removeRuns_found stack hruns, htake]
  cases removed with
  | none => rfl
  | some pos =>
    obtain ⟨-, hfit⟩ := remove_found hruns
    rw [strippedHeader, Option.bind_some, optionMove_eq hfit]
    dsimp only
    by_cases hremain : pos + 36 < ipHeaderLen ip
    · rw [if_pos hremain]
      exact take_move hle hfit
    · -- the option ends the header, and its 36 bytes stay where they are
      rw [if_neg hremain, show ipHeaderLen ip - 36 = pos by omega,
        List.drop_of_length_le (by omega), List.append_nil, List.take_append_drop]

lemma strippedHeader_length {reads : List ℕ} {removed : Option ℕ}
    (hruns : RemoveRuns ip stack reads removed) : (strippedHeader ip stack removed).length = 60 := by
  have hlen := modifiedHeader_length stack ip
  unfold strippedHeader
  cases hmove : removed.bind (optionMove ip) with
  | none => exact hlen
  | some c =>
    obtain ⟨pos, rfl, hc⟩ := Option.bind_eq_some_iff.mp hmove
    have hwithin := optionMove_within (remove_found hruns).2 c hc
    dsimp only
    rw [BlockCopy.apply_length (by rw [hlen]; exact hwithin), hlen]

/-- `buffer` is filled from the front, so nothing of what it held is hashed. -/
lemma keyedBuffer_eq (buffer : Vector UInt8 128) (data : List UInt8) {dataLen : ℕ}
    (hdata : dataLen ≤ data.length) (hlen : secretKey.length + dataLen ≤ 128) :
    keyedBuffer buffer data dataLen = secretKey ++ data.take dataLen := by
  have hkey : keyCopy.Within buffer.toList.length secretKey.length := by
    rw [Vector.length_toList]
    decide
  have htake := BlockCopy.take_apply hkey
  have hcopy : (dataCopy dataLen).Within (keyCopy.apply buffer.toList secretKey).length
      data.length := by
    rw [BlockCopy.apply_length hkey, Vector.length_toList]
    simp only [BlockCopy.Within, dataCopy]
    omega
  have hbuffer := BlockCopy.take_apply hcopy
  simp only [keyCopy, dataCopy, Nat.zero_add, List.take_zero, List.nil_append, List.drop_zero,
    List.take_length] at htake hbuffer
  rw [htake] at hbuffer
  exact hbuffer

/-- In the list model the handler hashes the same bytes. -/
lemma hashedData_headerBytes {reads removals : List ℕ} {pos : ℕ} {removed : Option ℕ}
    (hparse : ParseRuns ip reads (some pos)) (hremove : RemoveRuns ip stack removals removed) :
    hashedData (headerBytes ip) (ihl ip.toList 0) =
      (strippedHeader ip stack removed).take (trueHeaderSize ip stack) := by
  have hsafe := removalSafe stack hparse
  have hnew : UInt8.ofNat (ihl ip.toList 0) - 9 = newIhl ip stack := by
    have hpos : 0 < ihl ip.toList 0 := by
      have hihl := hsafe.ihl_eq
      omega
    rw [newIhl, ihl_originalHeader stack hpos]
    rfl
  have h12 : 12 ≤ ipHeaderLen ip := by
    have hreceived := hsafe.received
    omega
  have hlen : (restoreFields (headerBytes ip) (newIhl ip stack)).length = ipHeaderLen ip := by
    rw [restoreFields_length, headerBytes_length]
  unfold hashedData
  dsimp only
  rw [hnew, hlen, ← take_modifiedHeader stack h12, ← take_strippedHeader stack hremove, List.take_take,
    ← trueHeaderSize, Nat.min_eq_left hsafe.size_le]

end Arrays

lemma ihl_of_readRange {packet : List UInt8} {ip : HeaderBytes} (hihl : 0 < ihl packet 14)
    (hheader : readRange packet 14 (ihl packet 14 * 4) = some (headerBytes ip)) :
    ihl packet 14 = ihl ip.toList 0 := by
  unfold readRange at hheader
  split_ifs at hheader with hfit
  have hbytes : (packet.drop 14).take (ihl packet 14 * 4) = headerBytes ip := Option.some.inj hheader
  have hpos : 0 < ipHeaderLen ip := by
    rw [← headerBytes_length ip, ← hbytes, List.length_take, List.length_drop]
    omega
  have hfirst : byteAt packet 14 = byteAt ip.toList 0 := by
    calc
      byteAt packet 14 = byteAt (packet.drop 14) 0 := by
        simp only [byteAt, List.getD_eq_getElem?_getD, List.getElem?_drop, Nat.add_zero]
      _ = byteAt (headerBytes ip) 0 := by rw [← hbytes, byteAt_take _ (by omega)]
      _ = byteAt ip.toList 0 := byteAt_take _ hpos
  unfold ihl
  rw [hfirst]

/-- The loops and copies on the arrays give the report of the list model, whatever `original_header`
and `buffer` held before. -/
theorem packetHandler_runs (sha256 : List UInt8 → List UInt8) {packet : List UInt8}
    {ip stack : HeaderBytes} (buffer : Vector UInt8 128)
    (hproto : bpfNtohs (load16 packet 12) = ethPIp) (hihl : 5 < ihl packet 14)
    (hheader : readRange packet 14 (ihl packet 14 * 4) = some (headerBytes ip))
    {reads removals : List ℕ} {found removed : Option ℕ} (hparse : ParseRuns ip reads found)
    (hremove : RemoveRuns ip stack removals removed) :
    packetHandler sha256 packet = some (
      match found with
      | none => .noHash
      | some pos =>
          let received := (ip.toList.drop (pos + 4)).take 32
          let data := strippedHeader ip stack removed
          .checked received (data.take (trueHeaderSize ip stack))
            (received == (sha256 (keyedBuffer buffer data (trueHeaderSize ip stack))).take 32)) := by
  have hsame := ihl_of_readRange (by omega) hheader
  rw [packetHandler_header sha256 hproto hihl hheader, ← (parseRuns_iff.mp hparse).2, hsame]
  cases found with
  | none => rfl
  | some pos =>
    have hsafe := removalSafe stack hparse
    have hfit := hsafe.received
    have hreceived : ((headerBytes ip).drop (pos + 4)).take 32 =
        (ip.toList.drop (pos + 4)).take 32 := by
      rw [headerBytes, List.drop_take, List.take_take, Nat.min_eq_left (by omega)]
    have hsize : trueHeaderSize ip stack ≤ (strippedHeader ip stack removed).length := by
      rw [strippedHeader_length stack hremove]
      exact hsafe.size_le.trans (ipHeaderLen_le ip)
    have hbuffer := keyedBuffer_eq buffer (strippedHeader ip stack removed) hsize hsafe.hashed.2.1
    dsimp only
    rw [hreceived, hashedData_headerBytes stack hparse hremove, hbuffer, verifierHash]

end HashCompress.VerifierBounds
