import Mathlib

/-!
# Words, phrases and code widths

The data types of the text compressor of `Compression/main.cpp`: strings are byte lists, an
`unordered_map` is an association list without duplicate keys.
-/
namespace HashCompress.CodeTables

abbrev Word := List UInt8

abbrev WordMap := AList fun _ : Word => UInt32

structure PhraseInfo where
  wordCodes : List UInt32
  frequency : UInt32 := 0
  hasWildcard : Bool := false
  wildcardPos : ℕ := 0
  deriving DecidableEq, Repr

inductive Token where
  | word (w : Word)
  | phrase (phraseId : UInt32)
  | wildcard (w : Word) (phraseId : UInt32)
  deriving DecidableEq, Repr

def widthLoop (size : ℕ) : ℕ → ℕ → ℕ
  | 0, width => width
  | fuel + 1, width => if 2 ^ width < size then widthLoop size fuel (width + 1) else width

/-- The loop `while ((1ULL << width) < size) width++` that follows every dictionary. -/
def codeWidth (size : ℕ) : ℕ := widthLoop size size 0

lemma widthLoop_eq {size fuel width : ℕ} (hw : width ≤ Nat.clog 2 size)
    (hf : Nat.clog 2 size ≤ width + fuel) : widthLoop size fuel width = Nat.clog 2 size := by
  induction fuel generalizing width with
  | zero => exact le_antisymm hw hf
  | succ fuel ih =>
    by_cases hlt : 2 ^ width < size
    · have hnext : width + 1 ≤ Nat.clog 2 size := (Nat.lt_clog_iff_pow_lt (by omega)).mpr hlt
      simp only [widthLoop, if_pos hlt]
      exact ih hnext (by omega)
    · have hback : Nat.clog 2 size ≤ width :=
        (Nat.clog_le_iff_le_pow (by omega)).mpr (not_lt.mp hlt)
      simp only [widthLoop, if_neg hlt]
      exact le_antisymm hw hback

theorem codeWidth_eq_clog (size : ℕ) : codeWidth size = Nat.clog 2 size := by
  refine widthLoop_eq (Nat.zero_le _) ?_
  rw [Nat.zero_add]
  exact (Nat.clog_le_iff_le_pow (by omega)).mpr Nat.lt_two_pow_self.le

/-- Every code of a dictionary fits the width computed from its size. -/
theorem le_two_pow_codeWidth (size : ℕ) : size ≤ 2 ^ codeWidth size := by
  rw [codeWidth_eq_clog]
  exact Nat.le_pow_clog (by omega) size

end HashCompress.CodeTables
