import Mathlib

/-!
# Input streams over bytes

The parts of `std::istream` that formatted input from a byte sequence needs: the sentry, extraction
of decimal numbers and `getline`. A number that is not there is stored as 0, one that is too large
as the maximum, both with the fail bit; when the sentry fails the variable keeps its value.
-/
namespace HashCompress.InputStream

def isSpace (b : UInt8) : Bool := b == 32 || (9 ≤ b && b ≤ 13)

def isDigit (b : UInt8) : Bool := 48 ≤ b && b ≤ 57

structure IStream where
  rest : List UInt8
  eof : Bool := false
  fail : Bool := false
  deriving DecidableEq, Repr

namespace IStream

def good (s : IStream) : Bool := !s.eof && !s.fail

def setFail (s : IStream) : IStream := { s with fail := true }

/-- The sentry of a formatted extraction: `none` if there is nothing to extract. -/
def sentry (s : IStream) : Option IStream × IStream :=
  if s.good then
    match s.rest.dropWhile isSpace with
    | [] => (none, { rest := [], eof := true, fail := true })
    | rest => (some { s with rest }, { s with rest })
  else (none, s.setFail)

def decValue (digits : List UInt8) : ℕ := digits.foldl (fun acc d => 10 * acc + (d.toNat - 48)) 0

/-- An optional sign and the digits that follow. -/
def scanNumber (s : IStream) : Bool × List UInt8 × IStream :=
  let (negative, rest) := match s.rest with
    | b :: rest => if b = 45 then (true, rest) else if b = 43 then (false, rest) else (false, s.rest)
    | [] => (false, [])
  let left := rest.dropWhile isDigit
  (negative, rest.takeWhile isDigit, { s with rest := left, eof := left.isEmpty })

/-- `>>` into an unsigned variable with values up to `max`; a minus sign wraps around. -/
def extractNat (max old : ℕ) (s : IStream) : ℕ × IStream :=
  match s.sentry with
  | (none, s) => (old, s)
  | (some s, _) =>
    let (negative, digits, s) := s.scanNumber
    if digits = [] then (0, s.setFail)
    else if max < decValue digits then (max, s.setFail)
    else (if negative then (max + 1 - decValue digits) % (max + 1) else decValue digits, s)

/-- `>>` into a signed variable with values from `-max - 1` to `max`. -/
def extractInt (max : ℕ) (old : ℤ) (s : IStream) : ℤ × IStream :=
  match s.sentry with
  | (none, s) => (old, s)
  | (some s, _) =>
    let (negative, digits, s) := s.scanNumber
    let value : ℤ := if negative then -decValue digits else decValue digits
    if digits = [] then (0, s.setFail)
    else if (max : ℤ) < value then (max, s.setFail)
    else if value < -max - 1 then (-max - 1, s.setFail)
    else (value, s)

/-- `getline` into an empty string. -/
def getline (s : IStream) : List UInt8 × IStream :=
  if s.good then
    match s.rest with
    | [] => ([], { rest := [], eof := true, fail := true })
    | _ =>
      let line := s.rest.takeWhile (· != 10)
      match s.rest.dropWhile (· != 10) with
      | [] => (line, { s with rest := [], eof := true })
      | _ :: rest => (line, { s with rest })
  else ([], s.setFail)

end IStream

/-- A natural number in decimal, as `<<` writes it. -/
def decimal (n : ℕ) : List UInt8 :=
  if n = 0 then [48] else (Nat.digits 10 n).reverse.map fun d => UInt8.ofNat (48 + d)

lemma digit_byte {d : ℕ} (hd : d < 10) :
    isDigit (UInt8.ofNat (48 + d)) = true ∧ (UInt8.ofNat (48 + d)).toNat - 48 = d := by
  have hnat : (UInt8.ofNat (48 + d)).toNat = 48 + d :=
    UInt8.toNat_ofNat_of_lt' (by rw [UInt8.size]; omega)
  constructor
  · simp only [isDigit, Bool.and_eq_true, decide_eq_true_eq, UInt8.le_iff_toNat_le, hnat]
    exact ⟨Nat.le_add_right 48 d, by simp only [UInt8.reduceToNat]; omega⟩
  · omega

lemma decimal_ne_nil (n : ℕ) : decimal n ≠ [] := by
  unfold decimal
  split
  · simp
  · simpa [Nat.digits_ne_nil_iff_ne_zero]

lemma decimal_isDigit {n : ℕ} {b : UInt8} (hb : b ∈ decimal n) : isDigit b = true := by
  unfold decimal at hb
  split at hb
  · simp only [List.mem_singleton] at hb
    subst hb
    decide
  · obtain ⟨d, hd, rfl⟩ := List.mem_map.mp hb
    exact (digit_byte (Nat.digits_lt_base (by omega) (List.mem_reverse.mp hd))).1

lemma decValue_decimal (n : ℕ) : IStream.decValue (decimal n) = n := by
  unfold decimal
  split
  · rename_i hzero
    rw [hzero]
    rfl
  · have hfold : ∀ l : List ℕ, (∀ d ∈ l, d < 10) →
        IStream.decValue (l.reverse.map fun d => UInt8.ofNat (48 + d)) = Nat.ofDigits 10 l := by
      intro l hl
      induction l with
      | nil => rfl
      | cons d l ih =>
        have hd := (digit_byte (hl d List.mem_cons_self)).2
        have hl' := ih fun d hd => hl d (List.mem_cons_of_mem _ hd)
        unfold IStream.decValue at hl' ⊢
        rw [List.reverse_cons, List.map_append, List.foldl_append, hl', List.map_singleton,
          List.foldl_cons, List.foldl_nil, hd, Nat.ofDigits_cons]
        simp [Nat.add_comm]
    rw [hfold _ fun d hd => Nat.digits_lt_base (by omega) hd, Nat.ofDigits_digits]

lemma isDigit_iff {b : UInt8} : isDigit b = true ↔ 48 ≤ b.toNat ∧ b.toNat ≤ 57 := by
  simp [isDigit, UInt8.le_iff_toNat_le]

lemma isSpace_iff {b : UInt8} :
    isSpace b = true ↔ b.toNat = 32 ∨ (9 ≤ b.toNat ∧ b.toNat ≤ 13) := by
  simp [isSpace, UInt8.le_iff_toNat_le, ← UInt8.toNat_inj]

lemma isSpace_of_isDigit {b : UInt8} (hb : isDigit b = true) : isSpace b = false := by
  rw [isDigit_iff] at hb
  rw [Bool.eq_false_iff, ne_eq, isSpace_iff]
  omega

lemma scanNumber_decimal (n : ℕ) {sep : UInt8} (hsep : isDigit sep = false) (tail : List UInt8) :
    IStream.scanNumber { rest := decimal n ++ sep :: tail } =
      (false, decimal n, { rest := sep :: tail }) := by
  have hdrop : (decimal n ++ sep :: tail).dropWhile isDigit = sep :: tail := by
    rw [List.dropWhile_append_of_pos fun b hb => decimal_isDigit hb, List.dropWhile_cons, hsep]
    rfl
  have htake : (decimal n ++ sep :: tail).takeWhile isDigit = decimal n := by
    rw [List.takeWhile_append_of_pos fun b hb => decimal_isDigit hb, List.takeWhile_cons, hsep]
    simp
  cases hd : decimal n with
  | nil => exact absurd hd (decimal_ne_nil n)
  | cons b digits =>
    have hb : isDigit b = true := decimal_isDigit (n := n) (by rw [hd]; exact List.mem_cons_self)
    have hminus : b ≠ 45 := by rintro rfl; exact absurd hb (by decide)
    have hplus : b ≠ 43 := by rintro rfl; exact absurd hb (by decide)
    rw [hd] at hdrop htake
    simp only [List.cons_append] at hdrop htake ⊢
    simp only [IStream.scanNumber, if_neg hminus, if_neg hplus, hdrop, htake]
    rfl

/-- Blanks before a number are skipped. -/
lemma sentry_decimal (n : ℕ) {blank : List UInt8} (hblank : ∀ b ∈ blank, isSpace b = true)
    (tail : List UInt8) :
    IStream.sentry { rest := blank ++ (decimal n ++ tail) } =
      (some { rest := decimal n ++ tail }, { rest := decimal n ++ tail }) := by
  have hskip : (blank ++ (decimal n ++ tail)).dropWhile isSpace = decimal n ++ tail := by
    rw [List.dropWhile_append_of_pos hblank]
    cases hd : decimal n with
    | nil => exact absurd hd (decimal_ne_nil n)
    | cons b digits =>
      have hb : isDigit b = true := decimal_isDigit (n := n) (by rw [hd]; exact List.mem_cons_self)
      rw [List.cons_append, List.dropWhile_cons, isSpace_of_isDigit hb]
      rfl
  unfold IStream.sentry
  rw [hskip]
  cases hd : decimal n with
  | nil => exact absurd hd (decimal_ne_nil n)
  | cons b digits => rfl

/-- Reading back a number that is followed by a blank or a line end. -/
theorem extractNat_decimal {max n : ℕ} (old : ℕ) (hn : n ≤ max) {sep : UInt8}
    (hsep : isDigit sep = false) (blank : List UInt8) (hblank : ∀ b ∈ blank, isSpace b = true)
    (tail : List UInt8) :
    IStream.extractNat max old { rest := blank ++ (decimal n ++ sep :: tail) } =
      (n, { rest := sep :: tail }) := by
  unfold IStream.extractNat
  rw [sentry_decimal n hblank]
  simp only [scanNumber_decimal n hsep, decValue_decimal, if_neg (decimal_ne_nil n),
    if_neg (not_lt.mpr hn), Bool.false_eq_true, if_false]

/-- A number that is too large for the variable sets the fail bit. -/
theorem extractNat_overflow {max n : ℕ} (old : ℕ) (hn : max < n) {sep : UInt8}
    (hsep : isDigit sep = false) (blank : List UInt8) (hblank : ∀ b ∈ blank, isSpace b = true)
    (tail : List UInt8) :
    IStream.extractNat max old { rest := blank ++ (decimal n ++ sep :: tail) } =
      (max, { rest := sep :: tail, fail := true }) := by
  unfold IStream.extractNat
  rw [sentry_decimal n hblank]
  simp only [scanNumber_decimal n hsep, decValue_decimal, if_neg (decimal_ne_nil n), if_pos hn]
  rfl

theorem extractInt_decimal {max n : ℕ} (old : ℤ) (hn : n ≤ max) {sep : UInt8}
    (hsep : isDigit sep = false) (blank : List UInt8) (hblank : ∀ b ∈ blank, isSpace b = true)
    (tail : List UInt8) :
    IStream.extractInt max old { rest := blank ++ (decimal n ++ sep :: tail) } =
      ((n : ℤ), { rest := sep :: tail }) := by
  have hlow : ¬ (n : ℤ) < -max - 1 := by omega
  unfold IStream.extractInt
  rw [sentry_decimal n hblank]
  simp only [scanNumber_decimal n hsep, decValue_decimal, if_neg (decimal_ne_nil n),
    Bool.false_eq_true, if_false, Nat.cast_lt, if_neg (not_lt.mpr hn), if_neg hlow]

lemma getline_fail {s : IStream} (h : s.fail = true) : s.getline = ([], s) := by
  unfold IStream.getline IStream.good IStream.setFail
  obtain ⟨rest, eof, fail⟩ := s
  subst h
  simp

/-- A line that holds no line end is read as a whole. -/
theorem getline_line {line : List UInt8} (hline : (10 : UInt8) ∉ line) (tail : List UInt8) :
    IStream.getline { rest := line ++ 10 :: tail } = (line, { rest := tail }) := by
  have hne : ∀ b ∈ line, (b != 10) = true := by
    intro b hb
    rw [bne_iff_ne]
    rintro rfl
    exact hline hb
  have htake : (line ++ 10 :: tail).takeWhile (· != 10) = line := by
    rw [List.takeWhile_append_of_pos hne]
    simp
  have hdrop : (line ++ 10 :: tail).dropWhile (· != 10) = 10 :: tail := by
    rw [List.dropWhile_append_of_pos hne]
    simp
  unfold IStream.getline
  simp only [htake, hdrop, IStream.good, Bool.not_false, Bool.and_self, if_true]
  cases line <;> rfl

end HashCompress.InputStream
