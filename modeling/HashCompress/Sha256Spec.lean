import Mathlib

/-!
# SHA-256 on byte messages

The functions of FIPS 180-4 in the order in which the standard introduces them: word
operations, constants, padding, message schedule, rounds, digest. Everything is executable.
The constants are stated through the roots that define them, not as a table.
-/
namespace HashCompress.Sha256Spec

def rotr (n x : UInt32) : UInt32 := (x >>> n) ||| (x <<< (32 - n))

def ch (x y z : UInt32) : UInt32 := (x &&& y) ^^^ (~~~x &&& z)

def maj (x y z : UInt32) : UInt32 := (x &&& y) ^^^ (x &&& z) ^^^ (y &&& z)

def bigSigma0 (x : UInt32) : UInt32 := rotr 2 x ^^^ rotr 13 x ^^^ rotr 22 x

def bigSigma1 (x : UInt32) : UInt32 := rotr 6 x ^^^ rotr 11 x ^^^ rotr 25 x

def smallSigma0 (x : UInt32) : UInt32 := rotr 7 x ^^^ rotr 18 x ^^^ (x >>> 3)

def smallSigma1 (x : UInt32) : UInt32 := rotr 17 x ^^^ rotr 19 x ^^^ (x >>> 10)

/-- The first sixty-four primes. -/
def primes : List ℕ := (List.range 312).filter Nat.Prime

/-- First thirty-two bits of the fractional part of the `r`-th root of `p`. -/
def rootFraction (r p : ℕ) : UInt32 := UInt32.ofNat (Nat.nthRoot r (p * 2 ^ (32 * r)))

/-- Fractional parts of the cube roots of the first sixty-four primes. -/
def roundConstants : List UInt32 := primes.map (rootFraction 3)

/-- The eight working variables, and also the eight words of a hash value. -/
structure Chain where
  a : UInt32
  b : UInt32
  c : UInt32
  d : UInt32
  e : UInt32
  f : UInt32
  g : UInt32
  h : UInt32
  deriving DecidableEq, Repr

/-- Fractional parts of the square roots of the first eight primes. -/
def initialHash : Chain :=
  ⟨rootFraction 2 2, rootFraction 2 3, rootFraction 2 5, rootFraction 2 7,
    rootFraction 2 11, rootFraction 2 13, rootFraction 2 17, rootFraction 2 19⟩

/-- Big-endian value of a byte string. -/
def beValue (bytes : List UInt8) : ℕ := bytes.foldl (fun acc b => acc * 256 + b.toNat) 0

/-- The `n` low bytes of a number, most significant first. -/
def beBytes : ℕ → ℕ → List UInt8
  | 0, _ => []
  | n + 1, v => UInt8.ofNat (v / 256 ^ n) :: beBytes n v

/-- Append the bit one, as many zero bits as needed, and the length in bits. -/
def pad (message : List UInt8) : List UInt8 :=
  message ++ 0x80 :: (List.replicate ((119 - message.length % 64) % 64) 0 ++
    beBytes 8 (8 * message.length))

/-- The sixteen words of a 64-byte block. -/
def blockWords (block : List UInt8) : List UInt32 :=
  (List.range 16).map fun i => UInt32.ofNat (beValue ((block.drop (4 * i)).take 4))

/-- The next word of the schedule from the words computed so far. -/
def scheduleWord (w : List UInt32) : UInt32 :=
  smallSigma1 (w.getD (w.length - 2) 0) + w.getD (w.length - 7) 0 +
    smallSigma0 (w.getD (w.length - 15) 0) + w.getD (w.length - 16) 0

def scheduleStep (w : List UInt32) : List UInt32 := w ++ [scheduleWord w]

/-- The sixty-four schedule words of a block of sixteen words. -/
def schedule (words : List UInt32) : List UInt32 := scheduleStep^[48] words

def round (v : Chain) (kt wt : UInt32) : Chain :=
  let t1 := v.h + bigSigma1 v.e + ch v.e v.f v.g + kt + wt
  let t2 := bigSigma0 v.a + maj v.a v.b v.c
  ⟨t1 + t2, v.a, v.b, v.c, v.d + t1, v.e, v.f, v.g⟩

def Chain.add (x y : Chain) : Chain :=
  ⟨x.a + y.a, x.b + y.b, x.c + y.c, x.d + y.d, x.e + y.e, x.f + y.f, x.g + y.g, x.h + y.h⟩

/-- One block of sixteen words absorbed into an intermediate hash value. -/
def compressWith (k : List UInt32) (v : Chain) (words : List UInt32) : Chain :=
  let w := schedule words
  v.add ((List.range 64).foldl (fun v t => round v (k.getD t 0) (w.getD t 0)) v)

def compress : Chain → List UInt32 → Chain := compressWith roundConstants

def block (message : List UInt8) (i : ℕ) : List UInt8 := (message.drop (64 * i)).take 64

/-- The intermediate hash value after every full block of a message, starting from `v`. -/
def absorb (v : Chain) (message : List UInt8) : Chain :=
  (List.range (message.length / 64)).foldl
    (fun v i => compress v (blockWords (block message i))) v

def Chain.bytes (v : Chain) : List UInt8 :=
  [v.a, v.b, v.c, v.d, v.e, v.f, v.g, v.h].flatMap fun w => beBytes 4 w.toNat

/-- The SHA-256 digest of a message of fewer than `2^61` bytes. -/
def digest (message : List UInt8) : List UInt8 := (absorb initialHash (pad message)).bytes

@[simp] theorem beBytes_length (n v : ℕ) : (beBytes n v).length = n := by
  induction n with
  | zero => rfl
  | succ n ih => simp [beBytes, ih]

theorem beBytes_eq_map (n v : ℕ) :
    beBytes n v = (List.range n).map fun i => UInt8.ofNat (v / 256 ^ (n - 1 - i)) := by
  induction n with
  | zero => rfl
  | succ n ih =>
    rw [beBytes, ih, List.range_succ_eq_map, List.map_cons, List.map_map]
    congr 1
    apply List.map_congr_left
    intro i _
    simp only [Function.comp_apply, Nat.add_sub_cancel, Nat.succ_eq_add_one,
      show n - (i + 1) = n - 1 - i by omega]

@[simp] theorem blockWords_length (b : List UInt8) : (blockWords b).length = 16 := by
  simp [blockWords]

@[simp] theorem scheduleStep_length (w : List UInt32) :
    (scheduleStep w).length = w.length + 1 := by
  simp [scheduleStep]

theorem scheduleStep_iterate_length (n : ℕ) (w : List UInt32) :
    (scheduleStep^[n] w).length = w.length + n := by
  induction n with
  | zero => rfl
  | succ n ih => rw [Function.iterate_succ_apply', scheduleStep_length, ih, Nat.add_assoc]

theorem block_append_left {p s : List UInt8} {i : ℕ} (h : 64 * (i + 1) ≤ p.length) :
    block (p ++ s) i = block p i := by
  simp only [block]
  rw [List.drop_append_of_le_length (by omega), List.take_append_of_le_length]
  simp only [List.length_drop]
  omega

theorem block_append_right {p s : List UInt8} {n i : ℕ} (h : p.length = 64 * n) :
    block (p ++ s) (n + i) = block s i := by
  have hd : 64 * (n + i) = p.length + 64 * i := by omega
  simp only [block, hd, List.drop_append, Nat.add_sub_cancel_left,
    List.drop_eq_nil_of_le (Nat.le_add_right p.length (64 * i)), List.nil_append]

/-- Blocks are absorbed one after the other: a whole number of blocks first, then the rest. -/
theorem absorb_append (v : Chain) {p : List UInt8} (s : List UInt8) {n : ℕ}
    (h : p.length = 64 * n) : absorb v (p ++ s) = absorb (absorb v p) s := by
  have hl : (p ++ s).length / 64 = n + s.length / 64 := by
    rw [List.length_append, h]
    omega
  have hp : p.length / 64 = n := by omega
  simp only [absorb, hl, hp, List.range_add, List.foldl_append, List.foldl_map]
  have hleft : (List.range n).foldl (fun v i => compress v (blockWords (block (p ++ s) i))) v =
      (List.range n).foldl (fun v i => compress v (blockWords (block p i))) v := by
    apply List.foldl_ext
    intro w i hi
    have := List.mem_range.mp hi
    rw [block_append_left (by omega)]
  rw [hleft]
  apply List.foldl_ext
  intro w i _
  rw [block_append_right h]

theorem absorb_block (v : Chain) {s : List UInt8} (h : s.length = 64) :
    absorb v s = compress v (blockWords s) := by
  simp [absorb, block, h, List.take_of_length_le]

theorem absorb_append_block (v : Chain) {p s : List UInt8} (hp : p.length % 64 = 0)
    (hs : s.length = 64) : absorb v (p ++ s) = compress (absorb v p) (blockWords s) := by
  rw [absorb_append v s (n := p.length / 64) (by omega), absorb_block _ hs]

end HashCompress.Sha256Spec
