import HashCompress.BitList

/-!
# The bit writer and the bit reader

`BitWriter` and `BitReader` of `Compression/main.cpp`. A writer denotes the bits written so far and
a reader the bits that are still to come; the operations are specified by these two lists.
-/
namespace HashCompress.BitIO

open BitList

structure BitWriter where
  buffer : List UInt8 := []
  currentByte : UInt8 := 0
  bitsUsed : ℕ := 0
  deriving DecidableEq, Repr

namespace BitWriter

/-- One pass of the loop of `write_bits`, with the number of bits that are left to write. A shift
of 32 or more, which only a width above 32 asks for, is taken to give zero. -/
def writeChunk (w : BitWriter) (value : UInt32) (bitCount : ℕ) : BitWriter × ℕ :=
  let bitsToWrite := min bitCount (8 - w.bitsUsed)
  let mask := 1 <<< bitsToWrite - 1
  let bits := (value.toNat >>> (bitCount - bitsToWrite)) &&& mask
  let currentByte := UInt8.ofNat (w.currentByte.toNat ||| bits <<< (8 - w.bitsUsed - bitsToWrite))
  let bitsUsed := w.bitsUsed + bitsToWrite
  if bitsUsed = 8 then (⟨w.buffer ++ [currentByte], 0, 0⟩, bitCount - bitsToWrite)
  else (⟨w.buffer, currentByte, bitsUsed⟩, bitCount - bitsToWrite)

def writeLoop (value : UInt32) : ℕ → BitWriter → ℕ → BitWriter
  | 0, w, _ => w
  | fuel + 1, w, bitCount =>
    if bitCount = 0 then w
    else writeLoop value fuel (w.writeChunk value bitCount).1 (w.writeChunk value bitCount).2

/-- Every pass writes at least one bit, so `bitCount` passes are enough. -/
def writeBits (w : BitWriter) (value : UInt32) (bitCount : ℕ) : BitWriter :=
  writeLoop value bitCount w bitCount

def flush (w : BitWriter) : BitWriter :=
  if 0 < w.bitsUsed then ⟨w.buffer ++ [w.currentByte], 0, 0⟩ else w

/-- The bits written so far. -/
def bits (w : BitWriter) : List Bool :=
  bytesBits w.buffer ++ natBits w.bitsUsed (w.currentByte.toNat / 2 ^ (8 - w.bitsUsed))

/-- The current byte is not full and its unused bits are zero. -/
structure Ok (w : BitWriter) : Prop where
  room : w.bitsUsed < 8
  clear : w.currentByte.toNat % 2 ^ (8 - w.bitsUsed) = 0

theorem ok_empty : Ok {} := ⟨by decide, by decide⟩

@[simp] theorem bits_empty : bits {} = [] := rfl

/-- The current byte after a chunk: the bits it held, then the chunk, then zeros. -/
theorem chunk_byte {u k c : ℕ} {cur chunk : ℕ} (hk : u + k ≤ 8) (hcur : cur = 2 ^ (8 - u) * c)
    (hlt : cur < 256) (hchunk : chunk < 2 ^ k) :
    cur ||| chunk <<< (8 - u - k) = (c * 2 ^ k + chunk) * 2 ^ (8 - u - k) ∧
      cur ||| chunk <<< (8 - u - k) < 256 := by
  have hpow : 2 ^ (8 - u) = 2 ^ k * 2 ^ (8 - u - k) := by rw [← pow_add]; congr 1; omega
  have hshift : chunk <<< (8 - u - k) < 2 ^ (8 - u) := by
    rw [Nat.shiftLeft_eq, hpow]
    exact Nat.mul_lt_mul_of_pos_right hchunk (Nat.two_pow_pos _)
  constructor
  · rw [hcur, ← Nat.two_pow_add_eq_or_of_lt hshift, Nat.shiftLeft_eq, hpow]
    ring
  · have h8 : cur < 2 ^ 8 := hlt
    exact Nat.or_lt_two_pow h8 (lt_of_lt_of_le hshift (Nat.pow_le_pow_right (by omega) (by omega)))

theorem writeChunk_spec {w : BitWriter} (h : w.Ok) (value : UInt32) {n : ℕ} (hn : 0 < n) :
    ∃ k, 0 < k ∧ k ≤ n ∧ (w.writeChunk value n).2 = n - k ∧ (w.writeChunk value n).1.Ok ∧
      (w.writeChunk value n).1.bits = w.bits ++ natBits k (value.toNat / 2 ^ (n - k)) := by
  obtain ⟨hroom, hclear⟩ := h
  set u := w.bitsUsed with hu
  set k := min n (8 - u) with hk
  set chunk := value.toNat / 2 ^ (n - k) % 2 ^ k with hchunk
  set c := w.currentByte.toNat / 2 ^ (8 - u) with hc
  have hcur : w.currentByte.toNat = 2 ^ (8 - u) * c := by
    rw [hc, Nat.mul_div_cancel' (Nat.dvd_of_mod_eq_zero hclear)]
  have hmask : (value.toNat >>> (n - k)) &&& (1 <<< k - 1) = chunk := by
    rw [Nat.one_shiftLeft, Nat.and_two_pow_sub_one_eq_mod, Nat.shiftRight_eq_div_pow]
  obtain ⟨hbyte, hlt⟩ := chunk_byte (by omega : u + k ≤ 8) hcur w.currentByte.toNat_lt
    (Nat.mod_lt _ (Nat.two_pow_pos k) : chunk < 2 ^ k)
  set byte := UInt8.ofNat (w.currentByte.toNat ||| chunk <<< (8 - u - k)) with hb
  have hnat : byte.toNat = (c * 2 ^ k + chunk) * 2 ^ (8 - u - k) := by
    rw [hb, UInt8.toNat_ofNat_of_lt' hlt, hbyte]
  -- The bits held after the chunk are those held before, followed by the chunk.
  have hheld : natBits (u + k) (c * 2 ^ k + chunk) =
      natBits u c ++ natBits k (value.toNat / 2 ^ (n - k)) := by
    have hdiv : (c * 2 ^ k + chunk) / 2 ^ k = c := by
      rw [Nat.add_comm, Nat.add_mul_div_right _ _ (Nat.two_pow_pos k),
        Nat.div_eq_of_lt (Nat.mod_lt _ (Nat.two_pow_pos k)), Nat.zero_add]
    have hmod : (c * 2 ^ k + chunk) % 2 ^ k = value.toNat / 2 ^ (n - k) % 2 ^ k := by
      rw [Nat.add_comm, Nat.add_mul_mod_self_right, hchunk, Nat.mod_mod]
    rw [natBits_add, hdiv, natBits_congr hmod]
  refine ⟨k, by omega, by omega, ?_⟩
  by_cases hfull : u + k = 8
  · have heq : w.writeChunk value n = (⟨w.buffer ++ [byte], 0, 0⟩, n - k) := by
      simp only [writeChunk, ← hu, ← hk, hmask, ← hb, if_pos hfull]
    rw [heq]
    refine ⟨rfl, ⟨by simp, by simp⟩, ?_⟩
    have hzero : 8 - u - k = 0 := by omega
    rw [hzero, pow_zero, mul_one] at hnat
    rw [hfull] at hheld
    have hbyteBits : bytesBits [byte] = natBits u c ++ natBits k (value.toNat / 2 ^ (n - k)) := by
      rw [bytesBits_cons, bytesBits_nil, List.append_nil, hnat, hheld]
    change bytesBits (w.buffer ++ [byte]) ++ natBits 0 _ = _
    rw [bytesBits_append, hbyteBits]
    simp [bits, natBits, ← hu, hc]
  · have heq : w.writeChunk value n = (⟨w.buffer, byte, u + k⟩, n - k) := by
      simp only [writeChunk, ← hu, ← hk, hmask, ← hb, if_neg hfull]
    have hrest : 8 - (u + k) = 8 - u - k := by omega
    rw [heq]
    refine ⟨rfl, ⟨by simp only; omega, by simp only [hrest, hnat, Nat.mul_mod_left]⟩, ?_⟩
    change bytesBits w.buffer ++ natBits (u + k) (byte.toNat / 2 ^ (8 - (u + k))) = _
    rw [hrest, hnat, Nat.mul_div_cancel _ (Nat.two_pow_pos _), hheld, ← List.append_assoc]
    rfl

theorem writeLoop_spec (value : UInt32) {fuel n : ℕ} {w : BitWriter} (h : w.Ok) (hn : n ≤ fuel) :
    (writeLoop value fuel w n).Ok ∧
      (writeLoop value fuel w n).bits = w.bits ++ natBits n value.toNat := by
  induction fuel generalizing w n with
  | zero =>
    obtain rfl : n = 0 := by omega
    simp [writeLoop, h, natBits]
  | succ fuel ih =>
    by_cases hzero : n = 0
    · subst hzero
      simp [writeLoop, h, natBits]
    · obtain ⟨k, hpos, hle, hleft, hok, hbits⟩ := writeChunk_spec h value (by omega : 0 < n)
      obtain ⟨hok', hbits'⟩ := ih hok (by omega : (w.writeChunk value n).2 ≤ fuel)
      have hsplit := natBits_add k (n - k) value.toNat
      rw [show k + (n - k) = n by omega] at hsplit
      simp only [writeLoop, if_neg hzero]
      exact ⟨hok', by rw [hbits', hbits, hleft, hsplit, List.append_assoc]⟩

theorem writeBits_ok {w : BitWriter} (h : w.Ok) (value : UInt32) (n : ℕ) :
    (w.writeBits value n).Ok := (writeLoop_spec value h le_rfl).1

theorem bits_writeBits {w : BitWriter} (h : w.Ok) (value : UInt32) (n : ℕ) :
    (w.writeBits value n).bits = w.bits ++ natBits n value.toNat := (writeLoop_spec value h le_rfl).2

theorem bits_length {w : BitWriter} : w.bits.length = 8 * w.buffer.length + w.bitsUsed := by
  simp [bits, bytesBits_length]

/-- Flushing pads the bits with zeros up to the next byte. -/
theorem bytesBits_flush {w : BitWriter} (h : w.Ok) :
    bytesBits w.flush.buffer = w.bits ++ List.replicate ((8 - w.bits.length % 8) % 8) false := by
  obtain ⟨hroom, hclear⟩ := h
  rw [bits_length]
  by_cases hzero : w.bitsUsed = 0
  · simp [flush, bits, hzero, natBits]
  · have hpad : (8 - (8 * w.buffer.length + w.bitsUsed) % 8) % 8 = 8 - w.bitsUsed := by omega
    have hsplit := natBits_add w.bitsUsed (8 - w.bitsUsed) w.currentByte.toNat
    have hlow : natBits (8 - w.bitsUsed) w.currentByte.toNat = natBits (8 - w.bitsUsed) 0 :=
      natBits_congr (by rw [hclear, Nat.zero_mod])
    rw [show w.bitsUsed + (8 - w.bitsUsed) = 8 by omega, hlow, natBits_zero] at hsplit
    rw [hpad]
    simp [flush, bits, Nat.pos_of_ne_zero hzero, hsplit]

end BitWriter

structure BitReader where
  buffer : List UInt8
  currentByteIdx : ℕ := 0
  bitsRead : ℕ := 0
  deriving DecidableEq, Repr

namespace BitReader

/-- One pass of the loop of `read_bits` at the byte `byte`: the new result, the reader and the
number of bits left to read. -/
def readChunk (r : BitReader) (byte : UInt8) (result bitCount : ℕ) : ℕ × BitReader × ℕ :=
  let bitsToRead := min bitCount (8 - r.bitsRead)
  let shift := 8 - r.bitsRead - bitsToRead
  let mask := (1 <<< bitsToRead - 1) <<< shift
  let bits := (byte.toNat &&& mask) >>> shift
  let result := (result <<< bitsToRead) % 2 ^ 32 ||| bits
  let bitsRead := r.bitsRead + bitsToRead
  if bitsRead = 8 then (result, ⟨r.buffer, r.currentByteIdx + 1, 0⟩, bitCount - bitsToRead)
  else (result, ⟨r.buffer, r.currentByteIdx, bitsRead⟩, bitCount - bitsToRead)

def readLoop : ℕ → ℕ → BitReader → ℕ → ℕ × BitReader
  | 0, result, r, _ => (result, r)
  | fuel + 1, result, r, bitCount =>
    if bitCount = 0 then (result, r)
    else
      match r.buffer[r.currentByteIdx]? with
      | none => (result, r)
      | some byte =>
        let (result, r, bitCount) := r.readChunk byte result bitCount
        readLoop fuel result r bitCount

def readBits (r : BitReader) (bitCount : ℕ) : ℕ × BitReader := readLoop bitCount 0 r bitCount

def hasMore (r : BitReader) : Bool :=
  decide (r.currentByteIdx < r.buffer.length) || decide (r.bitsRead < 8)

/-- The bits that have not been read. -/
def rest (r : BitReader) : List Bool :=
  (bytesBits (r.buffer.drop r.currentByteIdx)).drop r.bitsRead

/-- `read_bits` leaves no byte read to its end: it moves on to the next one. -/
def Ok (r : BitReader) : Prop := r.bitsRead < 8

theorem ok_start (buffer : List UInt8) (idx : ℕ) : Ok ⟨buffer, idx, 0⟩ := by simp [Ok]

theorem rest_start (header buffer : List UInt8) :
    rest ⟨header ++ buffer, header.length, 0⟩ = bytesBits buffer := by simp [rest]

/-- The second half of the test holds of every reader, so there is always more to read. -/
theorem hasMore_of_ok {r : BitReader} (h : r.Ok) : r.hasMore = true := by
  unfold Ok at h
  simp [hasMore, h]

theorem shift_or_mod {result k chunk : ℕ} (hk : k ≤ 8) (hchunk : chunk < 2 ^ k) :
    (result <<< k) % 2 ^ 32 ||| chunk = (result * 2 ^ k + chunk) % 2 ^ 32 := by
  have hpow : 2 ^ 32 = 2 ^ k * 2 ^ (32 - k) := by rw [← pow_add]; congr 1; omega
  have hmod : (result <<< k) % 2 ^ 32 = 2 ^ k * (result % 2 ^ (32 - k)) := by
    rw [Nat.shiftLeft_eq, Nat.mul_comm, hpow, Nat.mul_mod_mul_left]
  have hlt : 2 ^ k * (result % 2 ^ (32 - k)) + chunk < 2 ^ 32 := by
    have hle : result % 2 ^ (32 - k) + 1 ≤ 2 ^ (32 - k) := Nat.mod_lt _ (Nat.two_pow_pos _)
    calc 2 ^ k * (result % 2 ^ (32 - k)) + chunk
        < 2 ^ k * (result % 2 ^ (32 - k)) + 2 ^ k := by omega
      _ = 2 ^ k * (result % 2 ^ (32 - k) + 1) := by ring
      _ ≤ 2 ^ k * 2 ^ (32 - k) := Nat.mul_le_mul_left _ hle
      _ = 2 ^ 32 := hpow.symm
  rw [hmod, ← Nat.two_pow_add_eq_or_of_lt hchunk, ← Nat.mod_eq_of_lt hlt, ← hmod,
    Nat.shiftLeft_eq, Nat.mod_add_mod]

theorem readChunk_spec {r : BitReader} (h : r.Ok) {byte : UInt8} {result n : ℕ} (hn : 0 < n)
    (hbyte : r.buffer[r.currentByteIdx]? = some byte) :
    ∃ k result' r', 0 < k ∧ k ≤ n ∧ r.readChunk byte result n = (result', r', n - k) ∧ r'.Ok ∧
      r'.buffer = r.buffer ∧ r.rest.take k ++ r'.rest = r.rest ∧ (r.rest.take k).length = k ∧
      result' = (result * 2 ^ k + bitsValue (r.rest.take k)) % 2 ^ 32 := by
  unfold Ok at h
  set u := r.bitsRead with hu
  set k := min n (8 - u) with hk
  set chunk := byte.toNat / 2 ^ (8 - u - k) % 2 ^ k with hchunk
  have hidx : r.currentByteIdx < r.buffer.length := (List.getElem?_eq_some_iff.mp hbyte).1
  have hdrop : r.buffer.drop r.currentByteIdx = byte :: r.buffer.drop (r.currentByteIdx + 1) := by
    rw [List.drop_eq_getElem_cons hidx, (List.getElem?_eq_some_iff.mp hbyte).2]
  have hrest : r.rest = natBits k (byte.toNat / 2 ^ (8 - u - k)) ++
      (natBits 8 byte.toNat ++ bytesBits (r.buffer.drop (r.currentByteIdx + 1))).drop (u + k) := by
    rw [rest, hdrop, bytesBits_cons, ← hu]
    exact natBits_slice (by omega) _ _
  have htake : r.rest.take k = natBits k (byte.toNat / 2 ^ (8 - u - k)) := by
    rw [hrest, List.take_left' (natBits_length _ _)]
  have hmask : (byte.toNat &&& (1 <<< k - 1) <<< (8 - u - k)) >>> (8 - u - k) = chunk := by
    rw [Nat.shiftRight_and_distrib, Nat.shiftLeft_shiftRight, Nat.one_shiftLeft,
      Nat.and_two_pow_sub_one_eq_mod, Nat.shiftRight_eq_div_pow]
  have hresult : (result <<< k) % 2 ^ 32 ||| chunk =
      (result * 2 ^ k + bitsValue (r.rest.take k)) % 2 ^ 32 := by
    rw [htake, bitsValue_natBits]
    exact shift_or_mod (by omega) (Nat.mod_lt _ (Nat.two_pow_pos k))
  have hlen : (r.rest.take k).length = k := by rw [htake, natBits_length]
  by_cases hfull : u + k = 8
  · refine ⟨k, _, ⟨r.buffer, r.currentByteIdx + 1, 0⟩, by omega, by omega, ?_, ok_start _ _, rfl, ?_,
      hlen, hresult⟩
    · simp only [readChunk, ← hu, ← hk, hmask, if_pos hfull]
    · rw [htake, hrest, hfull, List.drop_left' (natBits_length _ _)]
      simp [rest]
  · refine ⟨k, _, ⟨r.buffer, r.currentByteIdx, u + k⟩, by omega, by omega, ?_, ?_, rfl, ?_, hlen,
      hresult⟩
    · simp only [readChunk, ← hu, ← hk, hmask, if_neg hfull]
    · simp only [Ok]
      omega
    · rw [htake, hrest]
      simp only [rest, hdrop, bytesBits_cons]

theorem rest_eq_nil {r : BitReader} (h : r.buffer[r.currentByteIdx]? = none) : r.rest = [] := by
  rw [rest, List.drop_eq_nil_of_le (List.getElem?_eq_none_iff.mp h)]
  simp

theorem readLoop_spec {fuel n result : ℕ} {r : BitReader} (h : r.Ok) (hn : n ≤ fuel)
    (hresult : result < 2 ^ 32) :
    (readLoop fuel result r n).1 =
        (result * 2 ^ (r.rest.take n).length + bitsValue (r.rest.take n)) % 2 ^ 32 ∧
      (readLoop fuel result r n).2.Ok ∧ (readLoop fuel result r n).2.buffer = r.buffer ∧
      (readLoop fuel result r n).2.rest = r.rest.drop n := by
  have hstay : ∀ x : ℕ, x < 2 ^ 32 → x = x % 4294967296 := by omega
  induction fuel generalizing r n result with
  | zero =>
    obtain rfl : n = 0 := by omega
    simpa [readLoop, h] using hstay _ hresult
  | succ fuel ih =>
    by_cases hzero : n = 0
    · subst hzero
      simpa [readLoop, h] using hstay _ hresult
    · cases hbyte : r.buffer[r.currentByteIdx]? with
      | none =>
        simpa [readLoop, hzero, hbyte, h, rest_eq_nil hbyte] using hstay _ hresult
      | some byte =>
        obtain ⟨k, result', r', hpos, hle, heq, hok, hbuf, hrest, hlen, hvalue⟩ :=
          @readChunk_spec r h byte result n (by omega) hbyte
        have hdrop : r'.rest = r.rest.drop k := by
          rw [← hrest, List.drop_left' hlen]
        have htake : r.rest.take n = r.rest.take k ++ r'.rest.take (n - k) := by
          rw [hdrop, ← List.take_add, show k + (n - k) = n by omega]
        have hsmall : result' < 2 ^ 32 := by
          rw [hvalue]
          exact Nat.mod_lt _ (Nat.two_pow_pos 32)
        obtain ⟨h₁, h₂, h₃, h₄⟩ := ih hok (by omega : n - k ≤ fuel) hsmall
        simp only [readLoop, if_neg hzero, hbyte, heq]
        refine ⟨?_, h₂, h₃.trans hbuf, ?_⟩
        · rw [h₁, hvalue, htake, bitsValue_append, List.length_append, hlen, pow_add,
            Nat.add_mod, Nat.mod_mul_mod, ← Nat.add_mod]
          congr 1
          ring
        · rw [h₄, hdrop, List.drop_drop, show k + (n - k) = n by omega]

/-- `read_bits` returns the next `n` bits as a number, fewer at the end of the buffer. -/
theorem readBits_fst {r : BitReader} (h : r.Ok) (n : ℕ) :
    (r.readBits n).1 = bitsValue (r.rest.take n) % 2 ^ 32 := by
  unfold readBits
  simpa using (readLoop_spec h (le_refl n) (Nat.two_pow_pos 32)).1

theorem readBits_ok {r : BitReader} (h : r.Ok) (n : ℕ) : (r.readBits n).2.Ok :=
  (readLoop_spec h (le_refl n) (Nat.two_pow_pos 32)).2.1

theorem readBits_rest {r : BitReader} (h : r.Ok) (n : ℕ) :
    (r.readBits n).2.rest = r.rest.drop n :=
  (readLoop_spec h (le_refl n) (Nat.two_pow_pos 32)).2.2.2

/-- A field that comes next is read as the number that its bits stand for. -/
theorem readBits_natBits {r : BitReader} (h : r.Ok) {n v : ℕ} (hn : n ≤ 32) {tail : List Bool}
    (hrest : r.rest = natBits n v ++ tail) :
    (r.readBits n).1 = v % 2 ^ n ∧ (r.readBits n).2.Ok ∧ (r.readBits n).2.rest = tail := by
  have hlt : v % 2 ^ n < 2 ^ 32 :=
    (Nat.mod_lt _ (Nat.two_pow_pos n)).trans_le (Nat.pow_le_pow_right (by omega) hn)
  refine ⟨?_, readBits_ok h n, ?_⟩
  · rw [readBits_fst h, hrest, List.take_left' (natBits_length n v), bitsValue_natBits,
      Nat.mod_eq_of_lt hlt]
  · rw [readBits_rest h, hrest, List.drop_left' (natBits_length n v)]

end BitReader

/-! ### Sequences of fields -/

/-- The values with the numbers of their low bits that are written, one call after the other. -/
def writeFields (w : BitWriter) (fields : List (UInt32 × ℕ)) : BitWriter :=
  fields.foldl (fun w field => w.writeBits field.1 field.2) w

/-- One call of `read_bits` for each width. -/
def readFields : List ℕ → BitReader → List ℕ × BitReader
  | [], r => ([], r)
  | n :: widths, r =>
    let (value, r) := r.readBits n
    let (values, r) := readFields widths r
    (value :: values, r)

/-- The low bits of each value, most significant bit first. -/
def fieldBits (fields : List (UInt32 × ℕ)) : List Bool :=
  fields.flatMap fun field => natBits field.2 field.1.toNat

theorem writeFields_bits {w : BitWriter} (h : w.Ok) (fields : List (UInt32 × ℕ)) :
    (writeFields w fields).Ok ∧ (writeFields w fields).bits = w.bits ++ fieldBits fields := by
  induction fields generalizing w with
  | nil => exact ⟨h, (List.append_nil _).symm⟩
  | cons field fields ih =>
    obtain ⟨hok, hbits⟩ := ih (BitWriter.writeBits_ok h field.1 field.2)
    refine ⟨hok, hbits.trans ?_⟩
    rw [BitWriter.bits_writeBits h, List.append_assoc]
    rfl

theorem readFields_fieldBits {r : BitReader} (h : r.Ok) {fields : List (UInt32 × ℕ)}
    (hwidth : ∀ field ∈ fields, field.2 ≤ 32) {tail : List Bool}
    (hrest : r.rest = fieldBits fields ++ tail) :
    (readFields (fields.map Prod.snd) r).1 = fields.map (fun field => field.1.toNat % 2 ^ field.2) ∧
      (readFields (fields.map Prod.snd) r).2.rest = tail := by
  induction fields generalizing r with
  | nil => exact ⟨rfl, hrest⟩
  | cons field fields ih =>
    have hfirst : r.rest = natBits field.2 field.1.toNat ++ (fieldBits fields ++ tail) := by
      rw [hrest, ← List.append_assoc]
      rfl
    obtain ⟨hvalue, hok, hnext⟩ :=
      BitReader.readBits_natBits h (hwidth field List.mem_cons_self) hfirst
    obtain ⟨hvalues, hlast⟩ := ih hok (fun f hf => hwidth f (List.mem_cons_of_mem _ hf)) hnext
    exact ⟨congrArg₂ List.cons hvalue hvalues, hlast⟩

/-- Any sequence of fields of at most 32 bits is packed most significant bit first and padded with
zeros, and reading the same widths gives the values back, reduced to their widths. -/
theorem readFields_writeFields (fields : List (UInt32 × ℕ))
    (hwidth : ∀ field ∈ fields, field.2 ≤ 32) :
    bytesBits (writeFields {} fields).flush.buffer =
        fieldBits fields ++ List.replicate ((8 - (fieldBits fields).length % 8) % 8) false ∧
      (readFields (fields.map Prod.snd) ⟨(writeFields {} fields).flush.buffer, 0, 0⟩).1 =
        fields.map fun field => field.1.toNat % 2 ^ field.2 := by
  obtain ⟨hok, hbits⟩ := writeFields_bits BitWriter.ok_empty fields
  rw [BitWriter.bits_empty, List.nil_append] at hbits
  have hbuffer := BitWriter.bytesBits_flush hok
  rw [hbits] at hbuffer
  have hrest := (BitReader.rest_start [] (writeFields {} fields).flush.buffer).trans hbuffer
  exact ⟨hbuffer, (readFields_fieldBits (BitReader.ok_start _ 0) hwidth hrest).1⟩

theorem readFields_writeFields_straddling :
    (readFields [3, 32, 0, 7]
      ⟨(writeFields {} [(13, 3), (0x89ABCDEF, 32), (1, 0), (64, 7)]).flush.buffer, 0, 0⟩).1 =
      [5, 0x89ABCDEF, 0, 64] :=
  (readFields_writeFields [(13, 3), (0x89ABCDEF, 32), (1, 0), (64, 7)] (by decide)).2

end HashCompress.BitIO
