import HashCompress.Sha256Kernel
import HashCompress.StoreLoop

/-! The map-based SHA-256 computes the standard's digest for every way of splitting the
message over updates and for every previous contents of the two maps. -/
namespace HashCompress.Sha256Kernel
open Sha256Spec StoreLoop

/-- Below 324 trial division by the numbers below 18 decides primality. -/
theorem prime_iff_trial {n : ℕ} (hn : n < 324) :
    n.Prime ↔ 2 ≤ n ∧ ∀ m < 18, 2 ≤ m → m * m ≤ n → ¬ m ∣ n := by
  rw [Nat.prime_def_le_sqrt]
  refine and_congr_right fun _ => ⟨fun h m _ h2 hsq => h m h2 (Nat.le_sqrt.mpr hsq), ?_⟩
  intro h m h2 hroot
  have hsq := Nat.le_sqrt.mp hroot
  have hlt : m < 18 := by
    by_contra hge
    have hbig : 18 * 18 ≤ m * m := Nat.mul_le_mul (not_lt.mp hge) (not_lt.mp hge)
    omega
  exact h m hlt h2 hsq

theorem primes_eq_filter : primes =
    (List.range 312).filter fun n => 2 ≤ n ∧ ∀ m < 18, 2 ≤ m → m * m ≤ n → ¬ m ∣ n := by
  unfold primes
  refine List.filter_congr fun n hn => ?_
  rw [decide_eq_decide]
  exact prime_iff_trial ((List.mem_range.mp hn).trans (by decide))

theorem k_eq_roundConstants : k = roundConstants := by
  rw [roundConstants, primes_eq_filter]
  decide +kernel

theorem wordBytes_sum (w : UInt32) :
    UInt32.ofNat (UInt8.ofNat w.toNat).toNat +
      UInt32.ofNat ((UInt8.ofNat (w.toNat / 256)).toNat * 256) +
      UInt32.ofNat ((UInt8.ofNat (w.toNat / 65536)).toNat * 65536) +
      UInt32.ofNat ((UInt8.ofNat (w.toNat / 16777216)).toNat * 16777216) = w := by
  have hw := w.toNat_lt
  apply UInt32.toNat_inj.mp
  simp only [UInt32.toNat_add, UInt32.toNat_ofNat', UInt8.toNat_ofNat']
  omega

@[simp] theorem getM_setM_self (t : Scratch) {i : ℕ} (w : UInt32) (hi : i < 96) :
    getM (setM t i w) i = w := by
  simp only [getM, setM, Vector.getElem?_setIfInBounds]
  simpa [show 4 * i < 384 by omega, show 4 * i + 1 < 384 by omega, show 4 * i + 2 < 384 by omega,
    show 4 * i + 3 < 384 by omega] using wordBytes_sum w

@[simp] theorem getM_setM_ne (t : Scratch) {i j : ℕ} (w : UInt32) (h : i ≠ j) :
    getM (setM t i w) j = getM t j := by
  have hne : ∀ a < 4, ∀ b < 4, 4 * i + a ≠ 4 * j + b := by omega
  have hget : ∀ b < 4, (setM t i w)[4 * j + b]? = t[4 * j + b]? := by
    intro b hb
    simp only [setM]
    rw [Vector.getElem?_setIfInBounds_ne (hne 3 (by omega) b hb),
      Vector.getElem?_setIfInBounds_ne (hne 2 (by omega) b hb),
      Vector.getElem?_setIfInBounds_ne (hne 1 (by omega) b hb),
      Vector.getElem?_setIfInBounds_ne (by simpa using hne 0 (by omega) b hb)]
  have h0 := hget 0 (by omega)
  rw [Nat.add_zero] at h0
  simp only [getM, h0, hget 1 (by omega), hget 2 (by omega), hget 3 (by omega)]

theorem shiftLeft_or_byte {x y : ℕ} (n : ℕ) (hy : y < 256) :
    x <<< (n + 8) ||| y <<< n = (x * 256 + y) <<< n := by
  have hsplit : x <<< (n + 8) = (x <<< 8) <<< n := by rw [Nat.add_comm, Nat.shiftLeft_add]
  rw [hsplit, ← Nat.shiftLeft_or_distrib, ← Nat.shiftLeft_add_eq_or_of_lt (by omega : y < 2 ^ 8),
    Nat.shiftLeft_eq x]

/-- The shifts and ors of the first loop read four bytes as a big-endian number. -/
theorem shiftOr_eq_beValue (a b c d : UInt8) :
    (a.toUInt32 <<< 24) ||| (b.toUInt32 <<< 16) ||| (c.toUInt32 <<< 8) ||| d.toUInt32 =
      UInt32.ofNat (beValue [a, b, c, d]) := by
  have ha := a.toNat_lt
  have hb := b.toNat_lt
  have hc := c.toNat_lt
  have hd := d.toNat_lt
  have ma : a.toNat <<< 24 % 4294967296 = a.toNat <<< 24 := by rw [Nat.shiftLeft_eq]; omega
  have mb : b.toNat <<< 16 % 4294967296 = b.toNat <<< 16 := by rw [Nat.shiftLeft_eq]; omega
  have mc : c.toNat <<< 8 % 4294967296 = c.toNat <<< 8 := by rw [Nat.shiftLeft_eq]; omega
  have h1 := shiftLeft_or_byte (x := a.toNat) 16 hb
  have h2 := shiftLeft_or_byte (x := a.toNat * 256 + b.toNat) 8 hc
  have h3 := shiftLeft_or_byte (x := (a.toNat * 256 + b.toNat) * 256 + c.toNat) 0 hd
  simp only [Nat.reduceAdd, Nat.shiftLeft_zero] at h1 h2 h3
  apply UInt32.toNat_inj.mp
  simp only [UInt32.toNat_or, UInt32.toNat_shiftLeft, UInt8.toNat_toUInt32, UInt32.toNat_ofNat',
    beValue, List.foldl_cons, List.foldl_nil, Nat.zero_mul, Nat.zero_add, UInt32.reduceToNat,
    Nat.reduceMod, Nat.reducePow, ma, mb, mc, h1, h2, h3]
  omega

theorem take_four_drop (data : Vector UInt8 64) {j : ℕ} (hj : j + 3 < 64) :
    (data.toList.drop j).take 4 = [data[j]?.getD 0, data[j + 1]?.getD 0, data[j + 2]?.getD 0,
      data[j + 3]?.getD 0] := by
  have hget : ∀ n < 64, data.toList.drop n = data[n]?.getD 0 :: data.toList.drop (n + 1) := by
    intro n hn
    rw [List.drop_eq_getElem_cons (by simpa using hn)]
    simp [hn]
  rw [hget j (by omega), hget (j + 1) (by omega), hget (j + 2) (by omega),
    hget (j + 3) (by omega)]
  rfl

theorem dataWord_eq (data : Vector UInt8 64) {i : ℕ} (hi : i < 16) :
    dataWord data (i * 4) = (blockWords data.toList).getD i 0 := by
  rw [dataWord, shiftOr_eq_beValue, ← take_four_drop data (by omega)]
  simp [blockWords, hi, Nat.mul_comm]

/-- After `n` rounds of the copy loop the first `n` schedule words are the block's. -/
theorem copyBlock_getM (data : Vector UInt8 64) (t : Scratch) {n i : ℕ} (hn : n ≤ 16)
    (hi : i < n) :
    getM ((List.range n).foldl (fun t i => setM t i (dataWord data (i * 4))) t) i =
      (blockWords data.toList).getD i 0 := by
  induction n with
  | zero => omega
  | succ n ih =>
    rw [List.range_succ, List.foldl_append, List.foldl_cons, List.foldl_nil]
    rcases Nat.lt_succ_iff_lt_or_eq.mp hi with hlt | rfl
    · rw [getM_setM_ne _ _ (by omega)]
      exact ih (by omega) hlt
    · rw [getM_setM_self _ _ (by omega), dataWord_eq data (by omega)]

/-- The map `m` holds the words `w` from its start on. -/
def Holds (t : Scratch) (w : List UInt32) : Prop := ∀ i < w.length, getM t i = w.getD i 0

theorem copyBlock_holds (data : Vector UInt8 64) (t : Scratch) :
    Holds (copyBlock data t) (blockWords data.toList) := by
  intro i hi
  exact copyBlock_getM data t le_rfl (by simpa using hi)

/-- One step of the second loop computes the next schedule word of the standard. -/
theorem extendStep_holds {t : Scratch} {w : List UInt32} (h : Holds t w) (hl : 16 ≤ w.length)
    (hu : w.length < 64) : Holds (extendStep t w.length) (scheduleStep w) := by
  intro i hi
  rw [scheduleStep_length] at hi
  unfold extendStep scheduleStep
  rcases Nat.lt_succ_iff_lt_or_eq.mp hi with hlt | rfl
  · rw [getM_setM_ne _ _ (by omega), h i hlt, List.getD_append _ _ _ _ hlt]
  · rw [getM_setM_self _ _ (by omega), List.getD_append_right _ _ _ _ le_rfl, Nat.sub_self,
      h _ (by omega), h _ (by omega), h _ (by omega), h _ (by omega)]
    rfl

theorem extendSchedule_holds {t : Scratch} {w : List UInt32} (h : Holds t w)
    (hl : w.length = 16) : Holds (extendSchedule t) (schedule w) := by
  have hrun : ∀ n ≤ 48, Holds ((List.range' 16 n).foldl extendStep t) (scheduleStep^[n] w) := by
    intro n
    induction n with
    | zero => exact fun _ => h
    | succ n ih =>
      intro hn
      have hlen := scheduleStep_iterate_length n w
      have hidx : 16 + 1 * n = (scheduleStep^[n] w).length := by omega
      rw [List.range'_concat, List.foldl_append, List.foldl_cons, List.foldl_nil,
        Function.iterate_succ_apply', hidx]
      exact extendStep_holds (ih (by omega)) (by omega) (by omega)
  exact hrun 48 le_rfl

theorem schedule_length {w : List UInt32} (hl : w.length = 16) : (schedule w).length = 64 := by
  rw [schedule, scheduleStep_iterate_length, hl]

/-- With the schedule in `m`, one iteration of the main loop is one round of the standard. -/
theorem compressionStep_eq {t : Scratch} {w : List UInt32} (h : Holds t w) {i : ℕ}
    (hi : i < w.length) (v : Chain) :
    compressionStep t v i = round v (roundConstants.getD i 0) (w.getD i 0) := by
  rw [compressionStep, h i hi, k_eq_roundConstants]
  rfl

/-- The chaining value written to `ctx->state`. -/
def storeState (v : Chain) : Vector UInt32 8 := #v[v.a, v.b, v.c, v.d, v.e, v.f, v.g, v.h]

@[simp] theorem loadState_storeState (v : Chain) : loadState (storeState v) = v := rfl

theorem addState_eq (s : Vector UInt32 8) (v : Chain) :
    addState s v = storeState ((loadState s).add v) := rfl

/-- A transform absorbs the block it is given and touches nothing of the context but `state`. -/
theorem sha256Transform_ctx (data : Vector UInt8 64) (m : Maps) :
    (sha256Transform .ok data m).2.ctx = { m.ctx with
      state := storeState (compress (loadState m.ctx.state) (blockWords data.toList)) } := by
  have hholds := extendSchedule_holds (copyBlock_holds data m.temp) (blockWords_length _)
  have hlen := schedule_length (blockWords_length data.toList)
  have hrounds : (List.range 64).foldl
      (compressionStep (extendSchedule (copyBlock data m.temp))) (loadState m.ctx.state) =
      (List.range 64).foldl (fun v t => round v (roundConstants.getD t 0)
        ((schedule (blockWords data.toList)).getD t 0)) (loadState m.ctx.state) := by
    apply List.foldl_ext
    intro v i hi
    exact compressionStep_eq hholds (by simpa [hlen] using hi) v
  simp only [sha256Transform, Lookups.ok_ctx, Lookups.ok_temp, Bool.true_eq_false, if_false,
    addState_eq, hrounds, compress, compressWith]

/-- The context after the message `full ++ rest`: `full` is a whole number of blocks and has
been absorbed, `rest` waits in the block buffer. -/
structure Buffered (full rest : List UInt8) (c : Sha256Ctx) : Prop where
  aligned : full.length % 64 = 0
  short : rest.length < 64
  datalen : c.datalen.toNat = rest.length
  bitlen : c.bitlen = UInt64.ofNat (8 * full.length)
  state : loadState c.state = absorb initialHash full
  data : c.data.toList.take rest.length = rest

theorem sha256Init_buffered (m : Maps) : Buffered [] [] (sha256Init .ok m).2.ctx where
  aligned := rfl
  short := by decide
  datalen := rfl
  bitlen := rfl
  state := by
    change (⟨0x6a09e667, 0xbb67ae85, 0x3c6ef372, 0xa54ff53a, 0x510e527f, 0x9b05688c,
      0x1f83d9ab, 0x5be0cd19⟩ : Chain) = initialHash
    decide +kernel
  data := rfl

/-- One input byte moves the context from a message to the message with that byte appended. -/
theorem updateByte_buffered {full rest : List UInt8} {m : Maps} (b : UInt8)
    (h : Buffered full rest m.ctx) :
    ∃ full' rest', full' ++ rest' = full ++ rest ++ [b] ∧
      Buffered full' rest' (updateByte .ok m b).ctx := by
  have hshort := h.short
  have hdatalen := h.datalen
  have hnext : (m.ctx.datalen + 1).toNat = rest.length + 1 := by
    rw [UInt32.toNat_add, hdatalen, UInt32.toNat_one]
    omega
  have hdata : (m.ctx.data.setIfInBounds m.ctx.datalen.toNat b).toList.take (rest.length + 1) =
      rest ++ [b] := by
    rw [Vector.toList_setIfInBounds, hdatalen, take_set_self b (by simpa using hshort), h.data]
  by_cases hfull : rest.length + 1 = 64
  · -- the byte completes a block, which the transform absorbs
    have hlen64 : m.ctx.datalen + 1 = 64 := by
      apply UInt32.toNat_inj.mp
      rw [hnext, hfull]
      rfl
    have hblock : (m.ctx.data.setIfInBounds m.ctx.datalen.toNat b).toList = rest ++ [b] := by
      rw [← hdata, hfull, List.take_of_length_le (by simp)]
    refine ⟨full ++ (rest ++ [b]), [], by simp, ?_⟩
    simp only [updateByte, hlen64, if_true, sha256Transform_ctx]
    exact {
      aligned := by simp only [List.length_append, List.length_singleton]; have := h.aligned; omega
      short := by decide
      datalen := rfl
      bitlen := by
        simp only [h.bitlen, List.length_append, List.length_singleton, hfull]
        rw [Nat.mul_add, UInt64.ofNat_add]
        rfl
      state := by
        rw [loadState_storeState, hblock, h.state,
          absorb_append_block _ h.aligned (by simpa using hfull)]
      data := rfl }
  · have hne : m.ctx.datalen + 1 ≠ 64 := by
      intro he
      rw [he] at hnext
      exact hfull hnext.symm
    refine ⟨full, rest ++ [b], by simp, ?_⟩
    simp only [updateByte, if_neg hne]
    exact {
      aligned := h.aligned
      short := by rw [List.length_append, List.length_singleton]; omega
      datalen := by rw [hnext, List.length_append, List.length_singleton]
      bitlen := h.bitlen
      state := h.state
      data := by rw [List.length_append, List.length_singleton]; exact hdata }

/-- The context stands for the message hashed so far. -/
def Represents (message : List UInt8) (c : Sha256Ctx) : Prop :=
  ∃ full rest, full ++ rest = message ∧ Buffered full rest c

theorem updateByte_represents {message : List UInt8} {m : Maps} (b : UInt8)
    (h : Represents message m.ctx) : Represents (message ++ [b]) (updateByte .ok m b).ctx := by
  obtain ⟨full, rest, rfl, hb⟩ := h
  exact updateByte_buffered b hb

theorem Represents.datalen_lt {message : List UInt8} {c : Sha256Ctx} (h : Represents message c) :
    ¬ 64 ≤ c.datalen := by
  obtain ⟨full, rest, -, hb⟩ := h
  have h1 := hb.short
  have h2 := hb.datalen
  simp only [UInt32.le_iff_toNat_le, UInt32.reduceToNat]
  omega

theorem Represents.datalen_eq {message : List UInt8} {c : Sha256Ctx} (h : Represents message c) :
    c.datalen.toNat = message.length % 64 := by
  obtain ⟨full, rest, rfl, hb⟩ := h
  have h1 := hb.short
  have h2 := hb.aligned
  rw [hb.datalen, List.length_append]
  omega

/-- The schedule overwrites the scratch map only when a block is complete. -/
theorem updateByte_temp {lk : Lookups} {m : Maps} (b : UInt8) (h : m.ctx.datalen.toNat < 63) :
    (updateByte lk m b).temp = m.temp := by
  have hne : m.ctx.datalen + 1 ≠ 64 := by
    intro he
    have := congrArg UInt32.toNat he
    simp only [UInt32.toNat_add, UInt32.reduceToNat] at this
    omega
  simp only [updateByte, if_neg hne]

/-- Invariant rule for the loop of `sha256_update`, indexed by the loop counter. -/
theorem updateLoop_induct (lk : Lookups) (src : Source) (len : ℕ) (inv : ℕ → Maps → Prop)
    (hstep : ∀ i m, i < len → inv i m →
      ¬ 64 ≤ m.ctx.datalen ∧ inv (i + 1) (updateByte lk m (src.read m i)))
    (n i : ℕ) (m : Maps) (hn : i + n ≤ len) (h : inv i m) :
    inv (i + n) (updateLoop lk src n i m) := by
  induction n generalizing i m with
  | zero => exact h
  | succ n ih =>
    obtain ⟨hlt, hnext⟩ := hstep i m (by omega) h
    rw [updateLoop, if_neg hlt, show i + (n + 1) = i + 1 + n by omega]
    exact ih (i + 1) _ (by omega) hnext

/-- An update from memory outside the maps appends its bytes to the hashed message. -/
theorem sha256Update_represents {message bytes : List UInt8} {m : Maps}
    (h : Represents message m.ctx) :
    Represents (message ++ bytes)
      (sha256Update .ok (.memory bytes) bytes.length m).2.ctx := by
  have hrun := updateLoop_induct .ok (.memory bytes) bytes.length
    (fun i m => Represents (message ++ bytes.take i) m.ctx) ?_ bytes.length 0 m (by omega)
    (by simpa using h)
  · simpa [sha256Update, Lookups.ok] using hrun
  · intro i m hi hrep
    refine ⟨hrep.datalen_lt, ?_⟩
    rw [take_succ_getD bytes 0 hi, ← List.append_assoc]
    exact updateByte_represents _ hrep

theorem digestByte (w : UInt32) {i : ℕ} (hi : i < 4) :
    ((w >>> UInt32.ofNat (24 - i * 8)) &&& 0x000000ff).toUInt8 =
      UInt8.ofNat (w.toNat / 256 ^ (3 - i)) := by
  apply UInt8.toNat_inj.mp
  have hand : ∀ x : ℕ, x &&& 255 = x % 256 := fun x => Nat.and_two_pow_sub_one_eq_mod x 8
  simp only [UInt32.toNat_toUInt8, UInt32.toNat_and, UInt32.toNat_shiftRight, UInt32.toNat_ofNat',
    UInt8.toNat_ofNat', UInt32.reduceToNat, hand, Nat.shiftRight_eq_div_pow]
  interval_cases i <;> norm_num

theorem putDigest_getElem? (state : Vector UInt32 8) (hash : Vector UInt8 32) {q : ℕ}
    (hq : q < 32) : (putDigest state hash)[q]? =
      some (UInt8.ofNat ((state[q / 4]?.getD 0).toNat / 256 ^ (3 - q % 4))) := by
  have hflat : putDigest state hash = ((List.range 4).flatMap fun i =>
      (List.range 8).map fun j => (i, j)).foldl (fun hash p => hash.setIfInBounds (p.1 + 4 * p.2)
        (((state[p.2]?.getD 0) >>> UInt32.ofNat (24 - p.1 * 8)) &&& 0x000000ff).toUInt8) hash := by
    simp only [putDigest, List.foldl_flatMap, List.foldl_map]
  rw [hflat]
  apply getElem?_foldl_set _ _ _ _ hq
  · rintro ⟨i, j⟩ hp he
    simp only [List.mem_flatMap, List.mem_map, List.mem_range, Prod.mk.injEq] at hp he
    obtain ⟨i', hi, j', hj, rfl, rfl⟩ := hp
    rw [digestByte _ hi, show q / 4 = j' by omega, show q % 4 = i' by omega]
  · refine ⟨(q % 4, q / 4), ?_, by simp only; omega⟩
    simp only [List.mem_flatMap, List.mem_map, List.mem_range]
    exact ⟨q % 4, by omega, q / 4, by omega, rfl⟩

theorem putDigest_toList (state : Vector UInt32 8) (hash : Vector UInt8 32) :
    (putDigest state hash).toList = (loadState state).bytes := by
  apply List.ext_getElem?
  intro q
  by_cases hq : q < 32
  · rw [Vector.getElem?_toList, putDigest_getElem? state hash hq]
    interval_cases q <;> rfl
  · rw [List.getElem?_eq_none (by simpa using hq), List.getElem?_eq_none]
    simpa [Chain.bytes] using hq

theorem zeroFill_toList (data : Vector UInt8 64) {start stop : ℕ} (h : start ≤ stop)
    (hs : stop ≤ 64) : (zeroFill data start stop).toList =
      data.toList.take start ++ List.replicate (stop - start) 0 ++ data.toList.drop stop := by
  rw [zeroFill, toList_foldl_set (fun i => start + i) (fun _ => (0 : UInt8)),
    foldl_set_segment (fun _ => 0) _ _ _ (by simp; omega), List.map_const', List.length_range,
    Nat.add_sub_cancel' h]

theorem lengthByte (n : UInt64) {i : ℕ} (hi : i < 8) :
    (n >>> UInt64.ofNat (56 - 8 * i)).toUInt8 = UInt8.ofNat (n.toNat / 256 ^ (8 - 1 - i)) := by
  apply UInt8.toNat_inj.mp
  simp only [UInt64.toNat_toUInt8, UInt64.toNat_shiftRight, UInt64.toNat_ofNat',
    UInt8.toNat_ofNat', Nat.shiftRight_eq_div_pow]
  interval_cases i <;> norm_num

theorem putLength_toList (data : Vector UInt8 64) (n : UInt64) :
    (putLength data n).toList = data.toList.take 56 ++ beBytes 8 n.toNat := by
  have hbytes : (List.range 8).map (fun i => (n >>> UInt64.ofNat (56 - 8 * i)).toUInt8) =
      beBytes 8 n.toNat := by
    rw [beBytes_eq_map]
    apply List.map_congr_left
    intro i hi
    exact lengthByte n (List.mem_range.mp hi)
  rw [putLength, toList_foldl_set (fun i => 56 + i)
    (fun i => (n >>> UInt64.ofNat (56 - 8 * i)).toUInt8), foldl_set_segment _ _ _ _ (by simp),
    hbytes, List.drop_of_length_le (by simp), List.append_nil]

/-- What `pad` adds to the unabsorbed tail of a message, when `n` zero bytes fit. -/
def paddedTail (rest : List UInt8) (zeros bits : ℕ) : List UInt8 :=
  rest ++ 0x80 :: (List.replicate zeros 0 ++ beBytes 8 bits)

theorem pad_append {full : List UInt8} (rest : List UInt8) (h : full.length % 64 = 0) :
    pad (full ++ rest) = full ++ paddedTail rest ((119 - rest.length % 64) % 64)
      (8 * (full ++ rest).length) := by
  have hmod : (full ++ rest).length % 64 = rest.length % 64 := by
    rw [List.length_append]
    omega
  rw [pad, hmod, paddedTail, List.append_assoc]

/-- The block `sha256_final` hands to its last transform, before the length is stored. -/
theorem padBlock_ctx {full rest : List UInt8} {m : Maps} (h : Buffered full rest m.ctx) :
    (padBlock .ok m).ctx.bitlen = m.ctx.bitlen ∧ (padBlock .ok m).ctx.datalen = m.ctx.datalen ∧
      ∀ bits, compress (loadState (padBlock .ok m).ctx.state)
        (blockWords ((padBlock .ok m).ctx.data.toList.take 56 ++ beBytes 8 bits)) =
        absorb (absorb initialHash full)
          (paddedTail rest ((119 - rest.length % 64) % 64) bits) := by
  have hshort := h.short
  have hmod : rest.length % 64 = rest.length := Nat.mod_eq_of_lt hshort
  have hmarked : (m.ctx.data.setIfInBounds rest.length 0x80).toList.take (rest.length + 1) =
      rest ++ [0x80] := by
    rw [Vector.toList_setIfInBounds, take_set_self _ (by simpa using hshort), h.data]
  have hge : ¬ 64 ≤ m.ctx.datalen := Represents.datalen_lt ⟨full, rest, rfl, h⟩
  have hlt : m.ctx.datalen < 56 ↔ rest.length < 56 := by
    rw [UInt32.lt_iff_toNat_lt, h.datalen]
    rfl
  by_cases hd : rest.length < 56
  · -- the marker and the length fit into the same block
    have hz : (119 - rest.length % 64) % 64 = 56 - (rest.length + 1) := by omega
    have hdata : (zeroFill (m.ctx.data.setIfInBounds rest.length 0x80) (rest.length + 1)
        56).toList.take 56 = rest ++ 0x80 :: List.replicate (56 - (rest.length + 1)) 0 := by
      rw [zeroFill_toList _ (by omega) (by omega), hmarked, List.take_left' (by simp; omega)]
      simp
    simp only [padBlock, if_neg hge, h.datalen, if_pos (hlt.mpr hd), hdata, h.state, hz,
      true_and]
    intro bits
    have htail : (rest ++ 0x80 :: (List.replicate (56 - (rest.length + 1)) 0 ++
        beBytes 8 bits)).length = 64 := by
      simp only [List.length_append, List.length_cons, List.length_replicate, beBytes_length]
      omega
    rw [paddedTail, absorb_block (absorb initialHash full) htail]
    simp
  · have hz : (119 - rest.length % 64) % 64 = 64 - (rest.length + 1) + 56 := by omega
    have hdata : (zeroFill (m.ctx.data.setIfInBounds rest.length 0x80) (rest.length + 1)
        64).toList = rest ++ 0x80 :: List.replicate (64 - (rest.length + 1)) 0 := by
      rw [zeroFill_toList _ (by omega) le_rfl, hmarked, List.drop_of_length_le (by simp)]
      simp
    have hzero : ∀ data : Vector UInt8 64, (zeroFill data 0 56).toList.take 56 =
        List.replicate 56 0 := by
      intro data
      rw [zeroFill_toList _ (by omega) (by omega), List.take_zero, List.nil_append, Nat.sub_zero,
        List.take_left' (by simp)]
    simp only [padBlock, if_neg hge, h.datalen, if_neg (mt hlt.mp hd), hdata, h.state, hz,
      sha256Transform_ctx, hzero, loadState_storeState, true_and]
    intro bits
    have hsplit : paddedTail rest (64 - (rest.length + 1) + 56) bits =
        (rest ++ 0x80 :: List.replicate (64 - (rest.length + 1)) 0) ++
          (List.replicate 56 0 ++ beBytes 8 bits) := by
      simp [paddedTail, List.replicate_add]
    have hhead : (rest ++ 0x80 :: List.replicate (64 - (rest.length + 1)) 0).length = 64 := by
      simp only [List.length_append, List.length_cons, List.length_replicate]
      omega
    rw [hsplit, absorb_append_block (absorb initialHash full) (by rw [hhead]) (by simp),
      absorb_block (absorb initialHash full) hhead]

/-- `sha256_final` writes the digest of the message the context stands for. -/
theorem sha256Final_digest {message : List UInt8} {m : Maps} (hash : Vector UInt8 32)
    (h : Represents message m.ctx) (hlen : message.length < 2 ^ 61) :
    (sha256Final .ok hash m).2.1.toList = digest message := by
  obtain ⟨full, rest, rfl, hb⟩ := h
  obtain ⟨hbitlen, hdatalen, habsorb⟩ := padBlock_ctx hb
  have hshort := hb.short
  have hbits : (m.ctx.bitlen + (m.ctx.datalen * 8).toUInt64).toNat =
      8 * (full ++ rest).length := by
    simp only [hb.bitlen, UInt64.toNat_add, UInt32.toNat_toUInt64, UInt32.toNat_mul, hb.datalen,
      UInt64.toNat_ofNat', UInt32.reduceToNat, List.length_append] at hlen ⊢
    omega
  rw [digest, pad_append rest hb.aligned, absorb_append _ _ (n := full.length / 64)
    (by have := hb.aligned; omega), ← habsorb]
  simp only [sha256Final, Lookups.ok_ctx, Bool.true_eq_false, if_false, putDigest_toList,
    sha256Transform_ctx, putLength_toList, loadState_storeState, hbitlen, hdatalen, hbits]

theorem foldl_sha256Update_represents (chunks : List (List UInt8)) {message : List UInt8}
    {m : Maps} (h : Represents message m.ctx) :
    Represents (message ++ chunks.flatten)
      (chunks.foldl (fun m c => (sha256Update .ok (.memory c) c.length m).2) m).ctx := by
  induction chunks generalizing message m with
  | nil => simpa using h
  | cons c chunks ih =>
    rw [List.foldl_cons, List.flatten_cons, ← List.append_assoc]
    exact ih (sha256Update_represents h)

theorem kernelSha256_eq {message : List UInt8} (hlen : message.length < 2 ^ 61) :
    kernelSha256 message = digest message :=
  sha256Final_digest _ (sha256Update_represents ⟨[], [], rfl, sha256Init_buffered .zero⟩)
    (by simpa using hlen)

/-- Any message shorter than `2^61` bytes, split over updates in any way and hashed from any
previous contents of the maps, yields its SHA-256 digest. -/
theorem hashChunks_digest (chunks : List (List UInt8)) (hash : Vector UInt8 32) (m : Maps)
    (hlen : chunks.flatten.length < 2 ^ 61) (_hchunk : ∀ c ∈ chunks, c.length < 2 ^ 32) :
    (hashChunks .ok chunks hash m).2.1.toList = digest chunks.flatten := by
  have hinit : Represents [] (sha256Init .ok m).2.ctx := ⟨[], [], rfl, sha256Init_buffered m⟩
  have hall := foldl_sha256Update_represents chunks hinit
  rw [List.nil_append] at hall
  exact sha256Final_digest hash hall hlen

/-- Two updates of the message `abc`. -/
theorem hashChunks_digest_abc :
    (hashChunks .ok [[0x61], [0x62, 0x63]] (Vector.replicate 32 0xff) .zero).2.1.toList =
      digest [0x61, 0x62, 0x63] :=
  hashChunks_digest [[0x61], [0x62, 0x63]] _ _ (by decide) (by decide)

end HashCompress.Sha256Kernel
