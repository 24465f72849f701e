import HashCompress.Sha256KernelCorrect

/-! `compute_keyed_hash` of `xdp_prog_kern_02.c`: the key and the header bytes are assembled at
the start of the scratch map value and hashed from there, while `sha256_transform` uses the same
bytes for its schedule. -/
namespace HashCompress.KeyedHash
open Sha256Kernel Sha256Spec StoreLoop

/-- `SECRET_KEY`, the same sixteen bytes in the kernel program and in the verifier. -/
def secretKey : List UInt8 :=
  [0x4b, 0x75, 0x8f, 0x94, 0x98, 0xd3, 0x31, 0x26, 0x16, 0xec, 0xc2, 0x61, 0x99, 0x43, 0x76, 0x45]

/-- The key bytes of the source's assignments `buffer[0] = SECRET_KEY[0]` and
`buffer[i] = SECRET_KEY[1]` for `i` from 1 to 15. -/
def bufferKey (i : ℕ) : UInt8 := if i = 0 then secretKey.getD 0 0 else secretKey.getD 1 0

def putKey (t : Scratch) : Scratch :=
  (List.range 16).foldl (fun t i => t.setIfInBounds i (bufferKey i)) t

/-- The twenty guarded assignments `buffer[16 + i] = data[i]`. -/
def putHeader (frame : List UInt8) (data maxCopy : ℕ) (t : Scratch) : Scratch :=
  (List.range 20).foldl (fun t i =>
    if i + 1 ≤ maxCopy ∧ data + i < frame.length then
      t.setIfInBounds (16 + i) (frame.getD (data + i) 0)
    else t) t

/-- `data` is an offset into the frame and `data_end` the frame's length. -/
def computeKeyedHash (lk : Lookups) (frame : List UInt8) (data dataLen : ℕ)
    (hash : Vector UInt8 32) (m : Maps) : ℤ × Vector UInt8 32 × Maps :=
  if data + dataLen > frame.length then (-1, hash, m)
  else if lk.temp = false then (-1, hash, m)
  else
    let maxCopy := if dataLen > 20 then 20 else dataLen
    let m := { m with temp := putHeader frame data maxCopy (putKey m.temp) }
    let m := (sha256Init lk m).2
    let m := (sha256Update lk (.scratch 0) (16 + maxCopy) m).2
    let r := sha256Final lk hash m
    (0, r.2.1, r.2.2)

/-- The sixteen key bytes that the kernel program hashes. -/
def kernelKey : List UInt8 := (List.range 16).map bufferKey

/-- What the scratch buffer holds when it is hashed. -/
def keyedMessage (frame : List UInt8) (data dataLen : ℕ) : List UInt8 :=
  kernelKey ++ (frame.drop data).take (min 20 dataLen)

theorem keyedMessage_length {frame : List UInt8} {data dataLen : ℕ}
    (h : data + dataLen ≤ frame.length) :
    (keyedMessage frame data dataLen).length = 16 + min 20 dataLen := by
  simp only [keyedMessage, kernelKey, List.length_append, List.length_map, List.length_range,
    List.length_take, List.length_drop]
  omega

theorem putKey_getElem? (t : Scratch) {i : ℕ} (hi : i < 16) :
    (putKey t)[i]? = some (bufferKey i) := by
  apply getElem?_foldl_set (fun i => i) bufferKey _ t (by omega)
  · rintro j - rfl
    rfl
  · exact ⟨i, List.mem_range.mpr hi, rfl⟩

theorem putHeader_eq (frame : List UInt8) {data n : ℕ} (t : Scratch) (hn : n ≤ 20)
    (hfit : data + n ≤ frame.length) :
    putHeader frame data n t =
      (List.range n).foldl (fun t i => t.setIfInBounds (16 + i) (frame.getD (data + i) 0)) t := by
  have hsplit : List.range 20 = List.range n ++ (List.range (20 - n)).map (n + ·) := by
    rw [← List.range_add, Nat.add_sub_cancel' hn]
  rw [putHeader, hsplit, List.foldl_append]
  have hcopy : (List.range n).foldl (fun t i =>
      if i + 1 ≤ n ∧ data + i < frame.length then
        t.setIfInBounds (16 + i) (frame.getD (data + i) 0) else t) t =
      (List.range n).foldl (fun t i =>
        t.setIfInBounds (16 + i) (frame.getD (data + i) 0)) t := by
    apply List.foldl_ext
    intro t i hi
    have := List.mem_range.mp hi
    rw [if_pos (by omega)]
  rw [hcopy, List.foldl_map]
  -- the remaining guards are false
  apply List.foldl_fixed'
  intro i
  rw [if_neg (by omega)]

theorem scratch_holds_message {frame : List UInt8} {data dataLen : ℕ} (t : Scratch)
    (hfit : data + dataLen ≤ frame.length) {i : ℕ} (hi : i < 16 + min 20 dataLen) :
    (putHeader frame data (min 20 dataLen) (putKey t))[i]?.getD 0 =
      (keyedMessage frame data dataLen).getD i 0 := by
  rw [putHeader_eq frame _ (by omega) (by omega)]
  generalize hkey : putKey t = t'
  by_cases hk : i < 16
  · rw [getElem?_foldl_set_ne _ _ _ t' (fun j _ => by omega), ← hkey, putKey_getElem? t hk,
      keyedMessage, List.getD_append _ _ _ _ (by simpa [kernelKey])]
    simp [kernelKey, hk]
  · have hget := getElem?_foldl_set (fun i => 16 + i) (fun i => frame.getD (data + i) 0)
      (List.range (min 20 dataLen)) t' (q := i) (x := frame.getD (data + (i - 16)) 0)
      (by omega) (by rintro j - rfl; rw [Nat.add_sub_cancel_left])
      ⟨i - 16, List.mem_range.mpr (by omega), by omega⟩
    have hlen : kernelKey.length = 16 := rfl
    rw [hget, keyedMessage, List.getD_append_right _ _ _ _ (by omega), hlen, Option.getD_some]
    simp only [List.getD_eq_getElem?_getD, List.getElem?_take, List.getElem?_drop]
    rw [if_pos (by omega)]

/-- Hashing at most 63 bytes from the scratch map reads them all before the first transform. -/
theorem sha256Update_scratch {m : Maps} {message : List UInt8} (hlen : message.length < 64)
    (hheld : ∀ i < message.length, m.temp[i]?.getD 0 = message.getD i 0)
    (h : Represents [] m.ctx) :
    Represents message (sha256Update .ok (.scratch 0) message.length m).2.ctx := by
  have hrun := updateLoop_induct .ok (.scratch 0) message.length
    (fun i m' => m'.temp = m.temp ∧ Represents (message.take i) m'.ctx) ?_ message.length 0 m
    (by omega) ⟨rfl, by simpa using h⟩
  · simpa [sha256Update] using hrun.2
  · rintro i m' hi ⟨htemp, hrep⟩
    have hlast : m'.ctx.datalen.toNat < 63 := by
      rw [hrep.datalen_eq, List.length_take]
      omega
    have hread : Source.read m' (.scratch 0) i = message.getD i 0 := by
      rw [Source.read, htemp, Nat.zero_add, hheld i hi]
    refine ⟨hrep.datalen_lt, ?_, ?_⟩
    · rw [updateByte_temp _ hlast, htemp]
    · rw [hread, take_succ_getD message 0 hi]
      exact updateByte_represents _ hrep

/-- The keyed hash of a packet depends on nothing but the key and the packet's own bytes,
whatever earlier packets left in the two maps. -/
theorem computeKeyedHash_digest (frame : List UInt8) (data dataLen : ℕ)
    (hash : Vector UInt8 32) (m : Maps) (hfit : data + dataLen ≤ frame.length) :
    (computeKeyedHash .ok frame data dataLen hash m).1 = 0 ∧
      (computeKeyedHash .ok frame data dataLen hash m).2.1.toList =
        digest (keyedMessage frame data dataLen) := by
  have hmax : (if dataLen > 20 then 20 else dataLen) = min 20 dataLen := by
    split_ifs <;> omega
  have hlen := keyedMessage_length hfit
  have hkeyed : ∀ m', Represents (keyedMessage frame data dataLen)
      (sha256Update .ok (.scratch 0) (16 + min 20 dataLen) (sha256Init .ok
        ⟨m', putHeader frame data (min 20 dataLen) (putKey m.temp)⟩).2).2.ctx := by
    intro m'
    rw [← hlen]
    apply sha256Update_scratch (by omega) _ ⟨[], [], rfl, sha256Init_buffered _⟩
    intro i hi
    exact scratch_holds_message m.temp hfit (by omega)
  simp only [computeKeyedHash, if_neg (Nat.not_lt.mpr hfit), Lookups.ok_temp, Bool.true_eq_false,
    if_false, hmax, true_and]
  exact sha256Final_digest hash (hkeyed m.ctx) (by omega)

end HashCompress.KeyedHash
