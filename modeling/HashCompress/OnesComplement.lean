import Mathlib

/-! Ones' complement arithmetic on 16-bit words: sums with end-around carry, the checksum that
completes a sum to `0xFFFF`, and the exchange of the two bytes of every word. -/
namespace HashCompress.OnesComplement

/-- Addition of two words, the carry out of the top added back at the bottom. -/
def add (a b : ℕ) : ℕ := (a + b) % 65536 + (a + b) / 65536

def sum (words : List ℕ) : ℕ := words.foldl add 0

def checksum (words : List ℕ) : ℕ := 65535 - sum words

/-- The word that stands for a total: zero for zero, otherwise the residue in `1..65535`. -/
def residue (n : ℕ) : ℕ := if n = 0 then 0 else (n - 1) % 65535 + 1

def swap (x : ℕ) : ℕ := x % 256 * 256 + x / 256

lemma residue_lt (n : ℕ) : residue n < 65536 := by
  unfold residue
  split_ifs <;> omega

lemma residue_of_lt {n : ℕ} (h : n < 65536) : residue n = n := by
  unfold residue
  split_ifs <;> omega

lemma add_eq_residue {a b : ℕ} (ha : a < 65536) (hb : b < 65536) : add a b = residue (a + b) := by
  unfold add residue
  split_ifs <;> omega

lemma residue_add_residue (a b : ℕ) : residue (residue a + b) = residue (a + b) := by
  unfold residue
  split_ifs <;> omega

lemma foldl_add_eq {words : List ℕ} (h : ∀ w ∈ words, w < 65536) (acc : ℕ) :
    words.foldl add (residue acc) = residue (acc + words.sum) := by
  induction words generalizing acc with
  | nil => simp
  | cons w words ih =>
    have hw : w < 65536 := h w List.mem_cons_self
    have hrest := ih (fun v hv => h v (List.mem_cons_of_mem _ hv)) (acc + w)
    rw [List.foldl_cons, add_eq_residue (residue_lt acc) hw, residue_add_residue, hrest,
      List.sum_cons, Nat.add_assoc]

/-- The order of the additions does not matter: the sum is the residue of the total. -/
theorem sum_eq_residue {words : List ℕ} (h : ∀ w ∈ words, w < 65536) :
    sum words = residue words.sum := by
  have hfold := foldl_add_eq h 0
  rwa [Nat.zero_add] at hfold

/-- Filling a word that was zero with the checksum makes the sum `0xFFFF`. -/
theorem residue_add_checksum (total : ℕ) : residue (total + (65535 - residue total)) = 65535 := by
  have hlt := residue_lt total
  rw [← residue_add_residue, Nat.add_sub_of_le (by omega)]
  exact residue_of_lt (by omega)

lemma swap_lt {x : ℕ} (h : x < 65536) : swap x < 65536 := by
  unfold swap
  omega

lemma swap_complement {x : ℕ} (h : x < 65536) : swap (65535 - x) = 65535 - swap x := by
  unfold swap
  omega

/-- Exchanging the bytes is multiplying by 256. -/
lemma swap_eq_residue {x : ℕ} (h : x < 65536) : swap x = residue (256 * x) := by
  unfold swap residue
  split_ifs <;> omega

lemma residue_mul_residue (n : ℕ) : residue (256 * residue n) = residue (256 * n) := by
  unfold residue
  split_ifs <;> omega

lemma swap_add {a b : ℕ} (ha : a < 65536) (hb : b < 65536) :
    swap (add a b) = add (swap a) (swap b) := by
  rw [add_eq_residue ha hb, swap_eq_residue (residue_lt _), residue_mul_residue,
    add_eq_residue (swap_lt ha) (swap_lt hb), swap_eq_residue ha, swap_eq_residue hb,
    residue_add_residue, Nat.add_comm (256 * a), residue_add_residue, Nat.mul_add,
    Nat.add_comm (256 * a)]

lemma add_lt {a b : ℕ} (ha : a < 65536) (hb : b < 65536) : add a b < 65536 := by
  unfold add
  omega

lemma swap_foldl {words : List ℕ} (h : ∀ w ∈ words, w < 65536) {acc : ℕ} (hacc : acc < 65536) :
    swap (words.foldl add acc) = (words.map swap).foldl add (swap acc) := by
  induction words generalizing acc with
  | nil => rfl
  | cons w words ih =>
    have hw : w < 65536 := h w List.mem_cons_self
    rw [List.foldl_cons, List.map_cons, List.foldl_cons, ← swap_add hacc hw]
    exact ih (fun v hv => h v (List.mem_cons_of_mem _ hv)) (add_lt hacc hw)

/-- The sum does not depend on the byte order of the machine. -/
theorem swap_sum {words : List ℕ} (h : ∀ w ∈ words, w < 65536) :
    swap (sum words) = sum (words.map swap) :=
  swap_foldl h (by omega)

end HashCompress.OnesComplement
