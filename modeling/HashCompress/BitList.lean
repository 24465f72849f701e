import Mathlib

/-!
# Most significant bit first

Naturals and bytes as lists of bits, the first bit being the most significant one.
-/
namespace HashCompress.BitList

/-- The low `n` bits of `v`. -/
def natBits : ℕ → ℕ → List Bool
  | 0, _ => []
  | n + 1, v => v.testBit n :: natBits n v

def bitsValue (bits : List Bool) : ℕ := bits.foldl (fun acc b => 2 * acc + b.toNat) 0

def bytesBits (bytes : List UInt8) : List Bool := bytes.flatMap fun b => natBits 8 b.toNat

@[simp] theorem natBits_length (n v : ℕ) : (natBits n v).length = n := by
  induction n with
  | zero => rfl
  | succ n ih => simp [natBits, ih]

@[simp] theorem natBits_zero (n : ℕ) : natBits n 0 = List.replicate n false := by
  induction n with
  | zero => rfl
  | succ n ih => simp [natBits, ih, List.replicate_succ]

theorem natBits_add (a b v : ℕ) : natBits (a + b) v = natBits a (v / 2 ^ b) ++ natBits b v := by
  induction a with
  | zero => simp [natBits]
  | succ a ih => simp [Nat.succ_add, natBits, ih, Nat.testBit_div_two_pow]

theorem natBits_congr {n v v' : ℕ} (h : v % 2 ^ n = v' % 2 ^ n) : natBits n v = natBits n v' := by
  induction n with
  | zero => rfl
  | succ n ih =>
    have hlow : v % 2 ^ n = v' % 2 ^ n := by
      have hdvd : 2 ^ n ∣ 2 ^ (n + 1) := pow_dvd_pow 2 (Nat.le_succ n)
      rw [← Nat.mod_mod_of_dvd v hdvd, h, Nat.mod_mod_of_dvd v' hdvd]
    have htop : v.testBit n = v'.testBit n := by
      have h₁ := Nat.testBit_mod_two_pow v (n + 1) n
      have h₂ := Nat.testBit_mod_two_pow v' (n + 1) n
      rw [h] at h₁
      simpa using h₁.symm.trans h₂
    simp [natBits, htop, ih hlow]

theorem bitsValue_foldl (bits : List Bool) (acc : ℕ) :
    bits.foldl (fun acc b => 2 * acc + b.toNat) acc = acc * 2 ^ bits.length + bitsValue bits := by
  induction bits generalizing acc with
  | nil => simp [bitsValue]
  | cons b bits ih =>
    have hnil : bitsValue (b :: bits) = (2 * 0 + b.toNat) * 2 ^ bits.length + bitsValue bits :=
      ih (2 * 0 + b.toNat)
    rw [List.foldl_cons, ih, hnil, List.length_cons]
    ring

theorem bitsValue_append (xs ys : List Bool) :
    bitsValue (xs ++ ys) = bitsValue xs * 2 ^ ys.length + bitsValue ys := by
  unfold bitsValue
  rw [List.foldl_append, bitsValue_foldl]
  rfl

@[simp] theorem bitsValue_nil : bitsValue [] = 0 := rfl

theorem bitsValue_cons (b : Bool) (bits : List Bool) :
    bitsValue (b :: bits) = b.toNat * 2 ^ bits.length + bitsValue bits := by
  simpa [bitsValue] using bitsValue_append [b] bits

theorem bitsValue_natBits (n v : ℕ) : bitsValue (natBits n v) = v % 2 ^ n := by
  induction n with
  | zero => simp [natBits, Nat.mod_one]
  | succ n ih =>
    rw [natBits, bitsValue_cons, natBits_length, ih, Nat.mod_pow_succ, Nat.toNat_testBit,
      Nat.mul_comm, Nat.add_comm]

theorem natBits_inj {n v v' : ℕ} (h : natBits n v = natBits n v') (hv : v < 2 ^ n)
    (hv' : v' < 2 ^ n) : v = v' := by
  have hvalue := congrArg bitsValue h
  rwa [bitsValue_natBits, bitsValue_natBits, Nat.mod_eq_of_lt hv, Nat.mod_eq_of_lt hv'] at hvalue

@[simp] theorem bytesBits_nil : bytesBits [] = [] := rfl

@[simp] theorem bytesBits_cons (b : UInt8) (bytes : List UInt8) :
    bytesBits (b :: bytes) = natBits 8 b.toNat ++ bytesBits bytes := rfl

@[simp] theorem bytesBits_append (xs ys : List UInt8) :
    bytesBits (xs ++ ys) = bytesBits xs ++ bytesBits ys := List.flatMap_append

theorem bytesBits_length (bytes : List UInt8) : (bytesBits bytes).length = 8 * bytes.length := by
  induction bytes with
  | nil => rfl
  | cons b bytes ih => simp [ih, Nat.mul_add, Nat.add_comm]

theorem bytesBits_inj {xs ys : List UInt8} (h : bytesBits xs = bytesBits ys) : xs = ys := by
  have hlen := congrArg List.length h
  rw [bytesBits_length, bytesBits_length] at hlen
  induction xs generalizing ys with
  | nil => exact (List.eq_nil_of_length_eq_zero (by rw [List.length_nil] at hlen; omega)).symm
  | cons x xs ih =>
    cases ys with
    | nil => simp at hlen
    | cons y ys =>
      rw [bytesBits_cons, bytesBits_cons] at h
      obtain ⟨hfirst, hrest⟩ := List.append_inj h (by simp)
      have hbyte : x = y := UInt8.toNat_inj.mp (natBits_inj hfirst x.toNat_lt y.toNat_lt)
      rw [hbyte, ih hrest (by simpa using hlen)]

theorem bytesBits_drop (bytes : List UInt8) (n : ℕ) :
    bytesBits (bytes.drop n) = (bytesBits bytes).drop (8 * n) := by
  by_cases hn : n ≤ bytes.length
  · have hlen : (bytesBits (bytes.take n)).length = 8 * n := by
      rw [bytesBits_length, List.length_take_of_le hn]
    conv_rhs => rw [← List.take_append_drop n bytes, bytesBits_append, List.drop_left' hlen]
  · have hshort : bytes.length ≤ n := Nat.le_of_not_le hn
    rw [List.drop_eq_nil_of_le hshort, List.drop_eq_nil_of_le, bytesBits_nil]
    rw [bytesBits_length]
    exact Nat.mul_le_mul_left 8 hshort

/-- The bits `r, …, r + k - 1` of a byte, counted from the most significant one. -/
theorem natBits_slice {r k : ℕ} (h : r + k ≤ 8) (v : ℕ) (tail : List Bool) :
    (natBits 8 v ++ tail).drop r =
      natBits k (v / 2 ^ (8 - r - k)) ++ (natBits 8 v ++ tail).drop (r + k) := by
  have hsplit : natBits 8 v = natBits r (v / 2 ^ (8 - r)) ++
      (natBits k (v / 2 ^ (8 - r - k)) ++ natBits (8 - r - k) v) := by
    have h₁ := natBits_add r (8 - r) v
    have h₂ := natBits_add k (8 - r - k) v
    rw [show r + (8 - r) = 8 by omega] at h₁
    rw [show k + (8 - r - k) = 8 - r by omega] at h₂
    rw [h₁, h₂]
  rw [hsplit, List.append_assoc, List.drop_left' (natBits_length _ _), ← List.drop_drop,
    List.drop_left' (natBits_length _ _), List.append_assoc, List.drop_left' (natBits_length _ _)]

end HashCompress.BitList
