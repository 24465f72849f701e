import HashCompress.KeyedHash

/-! Hashing from the scratch map's `buffer`, up to its declared 128 bytes. The map declares `buffer`
and `m` as disjoint fields, but `sha256_transform` reaches the value through a struct of its own in
which `m` starts at offset 0: the first transform writes the schedule over the bytes that are still
to be read. -/
namespace HashCompress.ScratchHash
open Sha256Kernel Sha256Spec KeyedHash

/-- `sha256_init`, one `sha256_update` from the start of the scratch map, then `sha256_final`. -/
def hashScratch (lk : Lookups) (len : ℕ) (hash : Vector UInt8 32) (m : Maps) :
    ℤ × Vector UInt8 32 × Maps :=
  sha256Final lk hash (sha256Update lk (.scratch 0) len (sha256Init lk m).2).2

/-- The bytes that the loop of `sha256_update` reads, one for each iteration. -/
def updateReads (lk : Lookups) (src : Source) : ℕ → ℕ → Maps → List UInt8
  | 0, _, _ => []
  | n + 1, i, m =>
      if 64 ≤ m.ctx.datalen then []
      else src.read m i :: updateReads lk src n (i + 1) (updateByte lk m (src.read m i))

/-- The digest is that of the first `len` bytes the buffer held before the call, and these are the
bytes that were read. -/
structure HashesBuffer (m : Maps) (len : ℕ) : Prop where
  digest : ∀ hash, (hashScratch .ok len hash m).2.1.toList = Sha256Spec.digest (m.temp.toList.take len)
  unaltered : updateReads .ok (.scratch 0) len 0 (sha256Init .ok m).2 = m.temp.toList.take len

/-- Byte `i` of the schedule of a block, its words in the little-endian order of the host. -/
def scheduleByte (block : List UInt8) (i : ℕ) : UInt8 :=
  UInt8.ofNat (((schedule (blockWords block)).getD (i / 4) 0).toNat / 256 ^ (i % 4))

/-- What is read at offset `i` of a buffer: behind the first block the schedule of that block. -/
def readByte (t : Scratch) (i : ℕ) : UInt8 :=
  if i < 64 then t[i]?.getD 0 else scheduleByte (t.toList.take 64) i

/-! ### The bytes of the schedule -/

lemma byte_of_getM (t : Scratch) {i : ℕ} :
    t[i]?.getD 0 = UInt8.ofNat ((getM t (i / 4)).toNat / 256 ^ (i % 4)) := by
  have h0 := (t[4 * (i / 4)]?.getD 0).toNat_lt
  have h1 := (t[4 * (i / 4) + 1]?.getD 0).toNat_lt
  have h2 := (t[4 * (i / 4) + 2]?.getD 0).toNat_lt
  have h3 := (t[4 * (i / 4) + 3]?.getD 0).toNat_lt
  have hword : (getM t (i / 4)).toNat = (t[4 * (i / 4)]?.getD 0).toNat +
      (t[4 * (i / 4) + 1]?.getD 0).toNat * 256 + (t[4 * (i / 4) + 2]?.getD 0).toNat * 65536 +
      (t[4 * (i / 4) + 3]?.getD 0).toNat * 16777216 := by
    simp only [getM, UInt32.toNat_add, UInt32.toNat_ofNat']
    omega
  have hi : i = 4 * (i / 4) + i % 4 := by omega
  have hb : i % 4 < 4 := Nat.mod_lt _ (by omega)
  apply UInt8.toNat_inj.mp
  rw [UInt8.toNat_ofNat', hword]
  generalize i % 4 = b at hi hb ⊢
  generalize i / 4 = q at *
  subst hi
  interval_cases b <;> norm_num <;> omega

lemma sha256Transform_temp (data : Vector UInt8 64) (m : Maps) {i : ℕ} (hi : i < 256) :
    (sha256Transform .ok data m).2.temp[i]?.getD 0 = scheduleByte data.toList i := by
  have hholds := extendSchedule_holds (copyBlock_holds data m.temp) (blockWords_length data.toList)
  have hlen := schedule_length (blockWords_length data.toList)
  have htemp : (sha256Transform .ok data m).2.temp = extendSchedule (copyBlock data m.temp) := rfl
  rw [byte_of_getM, htemp, hholds (i / 4) (by omega), scheduleByte]

lemma updateByte_first_block {message : List UInt8} {m : Maps} (b : UInt8)
    (h : Represents message m.ctx) (hlen : message.length = 63) {i : ℕ} (hi : i < 256) :
    (updateByte .ok m b).temp[i]?.getD 0 = scheduleByte (message ++ [b]) i := by
  obtain ⟨full, rest, rfl, hb⟩ := h
  have hshort := hb.short
  have haligned := hb.aligned
  rw [List.length_append] at hlen
  have hnil : full = [] := List.length_eq_zero_iff.mp (by omega)
  subst hnil
  have hrest : rest.length = 63 := by simpa using hlen
  have hdatalen : m.ctx.datalen.toNat = 63 := hb.datalen.trans hrest
  have hfull : m.ctx.datalen + 1 = 64 := by
    apply UInt32.toNat_inj.mp
    rw [UInt32.toNat_add, hdatalen]
    rfl
  have hblock : (m.ctx.data.setIfInBounds m.ctx.datalen.toNat b).toList = rest ++ [b] := by
    have htake := StoreLoop.take_set_self b
      (show 63 < m.ctx.data.toList.length by rw [Vector.length_toList]; omega)
    have hdata := hb.data
    rw [hrest] at hdata
    rw [hdata, List.take_of_length_le (by rw [List.length_set, Vector.length_toList])] at htake
    rw [Vector.toList_setIfInBounds, hdatalen, htake]
  rw [List.nil_append, ← hblock]
  simp only [updateByte, hfull, if_true]
  exact sha256Transform_temp _ _ hi

/-! ### The loop -/

/-- The bytes read before iteration `i`, and what the map holds then. -/
structure ReadState (t : Scratch) (i : ℕ) (m : Maps) : Prop where
  represents : Represents ((List.range i).map (readByte t)) m.ctx
  ahead : i < 64 → m.temp = t
  overwritten : 64 ≤ i → i < 128 → ∀ j < 256, m.temp[j]?.getD 0 = scheduleByte (t.toList.take 64) j

lemma map_readByte_eq_take (t : Scratch) {n : ℕ} (hn : n ≤ 64) :
    (List.range n).map (readByte t) = t.toList.take n := by
  apply List.ext_getElem
  · rw [List.length_map, List.length_range, List.length_take, Vector.length_toList]
    omega
  · intro i h1 h2
    have hi : i < n := by simpa using h1
    have h384 : i < 384 := by omega
    rw [List.getElem_map, List.getElem_range, readByte, if_pos (by omega)]
    simp [h384]

lemma ReadState.read {t : Scratch} {i : ℕ} {m : Maps} (h : ReadState t i m) (hi : i < 128) :
    Source.read m (.scratch 0) i = readByte t i := by
  rw [Source.read, Nat.zero_add, readByte]
  split_ifs with h64
  · rw [h.ahead h64]
  · exact h.overwritten (by omega) hi i (by omega)

lemma ReadState.step {t : Scratch} {i : ℕ} {m : Maps} (h : ReadState t i m) (hi : i < 128) :
    ReadState t (i + 1) (updateByte .ok m (readByte t i)) := by
  have hlen : ((List.range i).map (readByte t)).length = i := by simp
  have hdatalen := h.represents.datalen_eq
  rw [hlen] at hdatalen
  refine ⟨?_, ?_, ?_⟩
  · rw [List.range_succ, List.map_append]
    exact updateByte_represents _ h.represents
  · intro h64
    rw [updateByte_temp _ (by omega)]
    exact h.ahead (by omega)
  · intro h64 h128 j hj
    by_cases hfirst : i = 63
    · subst hfirst
      rw [updateByte_first_block _ h.represents hlen hj, ← map_readByte_eq_take t le_rfl,
        List.range_succ, List.map_append]
      rfl
    · rw [updateByte_temp _ (by omega)]
      exact h.overwritten (by omega) (by omega) j hj

lemma ReadState.run {t : Scratch} (n : ℕ) {i : ℕ} {m : Maps} (h : ReadState t i m)
    (hn : i + n ≤ 128) :
    updateReads .ok (.scratch 0) n i m = (List.range' i n).map (readByte t) ∧
      ReadState t (i + n) (updateLoop .ok (.scratch 0) n i m) := by
  induction n generalizing i m with
  | zero => exact ⟨rfl, h⟩
  | succ n ih =>
    obtain ⟨hreads, hstate⟩ := ih (h.step (by omega)) (by omega)
    have hopen := h.represents.datalen_lt
    rw [updateReads, updateLoop, if_neg hopen, if_neg hopen, h.read (by omega), hreads]
    refine ⟨by rw [List.range'_succ]; rfl, ?_⟩
    rw [show i + (n + 1) = i + 1 + n by omega]
    exact hstate

lemma hashScratch_reads (m : Maps) {len : ℕ} (hlen : len ≤ 128) :
    updateReads .ok (.scratch 0) len 0 (sha256Init .ok m).2 =
        (List.range len).map (readByte m.temp) ∧
      ∀ hash, (hashScratch .ok len hash m).2.1.toList =
        digest ((List.range len).map (readByte m.temp)) := by
  have hstart : ReadState m.temp 0 (sha256Init .ok m).2 :=
    ⟨⟨[], [], rfl, sha256Init_buffered m⟩, fun _ => rfl, fun h => absurd h (by omega)⟩
  obtain ⟨hreads, hstate⟩ := hstart.run len (by omega)
  rw [Nat.zero_add] at hstate
  refine ⟨by rw [hreads, List.range_eq_range'], fun hash => ?_⟩
  have hupdate : (sha256Update .ok (.scratch 0) len (sha256Init .ok m).2).2 =
      updateLoop .ok (.scratch 0) len 0 (sha256Init .ok m).2 := rfl
  rw [hashScratch, hupdate]
  apply sha256Final_digest hash hstate.represents
  rw [List.length_map, List.length_range]
  omega

lemma map_readByte_eq_iff (t : Scratch) {len : ℕ} (hlen : len ≤ 128) :
    (List.range len).map (readByte t) = t.toList.take len ↔
      ∀ i, 64 ≤ i → i < len → t[i]?.getD 0 = scheduleByte (t.toList.take 64) i := by
  have hget : ∀ i, i < len → (t.toList.take len)[i]? = some (t[i]?.getD 0) := by
    intro i hi
    have h384 : i < 384 := by omega
    rw [List.getElem?_take_of_lt hi]
    simp [h384]
  constructor
  · intro heq i h64 hi
    have hith := congrArg (fun l => l[i]?) heq
    simp only [hget i hi, List.getElem?_map, List.getElem?_range hi, Option.map_some,
      Option.some.injEq, readByte, if_neg (not_lt.mpr h64)] at hith
    exact hith.symm
  · intro hsame
    apply List.ext_getElem?
    intro i
    by_cases hi : i < len
    · rw [hget i hi, List.getElem?_map, List.getElem?_range hi, Option.map_some, readByte]
      split_ifs with h64
      · rfl
      · rw [hsame i (by omega) hi]
    · rw [List.getElem?_eq_none (by simpa using hi), List.getElem?_eq_none]
      rw [List.length_take]
      omega

/-- All zero but for the first byte behind the first block. -/
def strayMaps : Maps := { Maps.zero with temp := (Vector.replicate 384 0).set 64 1 }

lemma strayMaps_scheduleByte : scheduleByte (strayMaps.temp.toList.take 64) 64 = 0 := by
  decide +kernel

/-- For every contents of the maps the buffer is hashed as it was exactly if its bytes behind the
first block are those of the block's schedule; for all contents, exactly if there are none. -/
theorem hashesBuffer_iff (len : ℕ) (hlen : len ≤ 128) :
    (∀ m : Maps, HashesBuffer m len ↔
      ∀ i, 64 ≤ i → i < len → m.temp[i]?.getD 0 = scheduleByte (m.temp.toList.take 64) i) ∧
    ((∀ m : Maps, HashesBuffer m len) ↔ len ≤ 64) := by
  have hexact : ∀ m : Maps, HashesBuffer m len ↔
      ∀ i, 64 ≤ i → i < len → m.temp[i]?.getD 0 = scheduleByte (m.temp.toList.take 64) i := by
    intro m
    obtain ⟨hreads, hdigest⟩ := hashScratch_reads m hlen
    rw [← map_readByte_eq_iff m.temp hlen]
    constructor
    · intro h
      rw [← hreads, h.unaltered]
    · intro heq
      exact ⟨fun hash => by rw [hdigest, heq], by rw [hreads, heq]⟩
  refine ⟨hexact, ?_, ?_⟩
  · intro hall
    by_contra hlong
    have hstray := (hexact strayMaps).mp (hall strayMaps) 64 le_rfl (by omega)
    rw [strayMaps_scheduleByte] at hstray
    exact absurd hstray (by decide)
  · intro hshort m
    exact (hexact m).mpr fun i h64 hi => absurd hi (by omega)

theorem hashesBuffer_block : HashesBuffer strayMaps 64 :=
  (hashesBuffer_iff 64 (by decide)).2.mpr le_rfl strayMaps

theorem hashScratch_stray_byte :
    ¬ ∀ hash, (hashScratch .ok 65 hash strayMaps).2.1.toList =
      digest (strayMaps.temp.toList.take 65) := by
  intro h
  have hread := (hashScratch_reads strayMaps (by decide : 65 ≤ 128)).2 (Vector.replicate 32 0)
  rw [h] at hread
  have hne : digest (strayMaps.temp.toList.take 65) ≠
      digest ((List.range 65).map (readByte strayMaps.temp)) := by
    unfold digest absorb compress
    rw [← k_eq_roundConstants]
    decide +kernel
  exact hne hread

end HashCompress.ScratchHash
