import Mathlib

/-! Loops that store into consecutive or otherwise distinct cells of a list or a vector, and copies of
whole blocks. -/
namespace HashCompress.StoreLoop

theorem take_set_self {α : Type*} {l : List α} {n : ℕ} (x : α) (h : n < l.length) :
    (l.set n x).take (n + 1) = l.take n ++ [x] := by
  rw [List.take_add_one, List.take_set_of_le le_rfl, List.getElem?_set_self h]
  rfl

theorem take_succ_getD {α : Type*} (l : List α) {i : ℕ} (d : α) (h : i < l.length) :
    l.take (i + 1) = l.take i ++ [l.getD i d] := by
  rw [List.take_add_one, List.getElem?_eq_getElem h, List.getD_eq_getElem _ _ h]
  rfl

theorem toList_foldl_set {α ι : Type*} {n : ℕ} (g : ι → ℕ) (f : ι → α) (is : List ι)
    (v : Vector α n) :
    (is.foldl (fun v i => v.setIfInBounds (g i) (f i)) v).toList =
      is.foldl (fun l i => l.set (g i) (f i)) v.toList :=
  (List.foldl_hom Vector.toList fun _ _ => Vector.toList_setIfInBounds.symm).symm

/-- A loop that stores `f i` at `b + i` for `i` below `n` replaces that segment. -/
theorem foldl_set_segment {α : Type*} (f : ℕ → α) (b n : ℕ) (l : List α) (h : b + n ≤ l.length) :
    (List.range n).foldl (fun l i => l.set (b + i) (f i)) l =
      l.take b ++ (List.range n).map f ++ l.drop (b + n) := by
  induction n with
  | zero => simp
  | succ n ih =>
    have hdrop : l.drop (b + n) = l[b + n] :: l.drop (b + (n + 1)) := by
      rw [List.drop_eq_getElem_cons (by omega)]
      rfl
    have hpre : (l.take b ++ (List.range n).map f).length = b + n := by
      simp only [List.length_append, List.length_take, List.length_map, List.length_range]
      omega
    rw [List.range_succ, List.foldl_append, ih (by omega), List.foldl_cons, List.foldl_nil, hdrop,
      List.set_append_right _ _ hpre.le, hpre, Nat.sub_self, List.set_cons_zero, List.map_append,
      List.append_cons]
    simp

/-- A loop of stores leaves `x` at `q` when some store goes there and each such store is of `x`. -/
theorem getElem?_foldl_set {α ι : Type*} {n : ℕ} (g : ι → ℕ) (f : ι → α) (is : List ι)
    (v : Vector α n) {q : ℕ} {x : α} (hq : q < n) (hval : ∀ i ∈ is, g i = q → f i = x)
    (hmem : ∃ i ∈ is, g i = q) :
    (is.foldl (fun v i => v.setIfInBounds (g i) (f i)) v)[q]? = some x := by
  induction is using List.reverseRecOn with
  | nil => simp at hmem
  | append_singleton is i ih =>
    rw [List.foldl_append, List.foldl_cons, List.foldl_nil, Vector.getElem?_setIfInBounds]
    by_cases hi : g i = q
    · rw [if_pos hi, if_pos (hi ▸ hq), hval i (by simp) hi]
    · rw [if_neg hi]
      obtain ⟨j, hj, hjq⟩ := hmem
      have hj' : j ∈ is := by
        rcases List.mem_append.mp hj with h | h
        · exact h
        · rw [List.mem_singleton.mp h] at hjq
          exact absurd hjq hi
      exact ih (fun i hi => hval i (by simp [hi])) ⟨j, hj', hjq⟩

theorem getElem?_foldl_set_ne {α ι : Type*} {n : ℕ} (g : ι → ℕ) (f : ι → α) (is : List ι)
    (v : Vector α n) {q : ℕ} (h : ∀ i ∈ is, g i ≠ q) :
    (is.foldl (fun v i => v.setIfInBounds (g i) (f i)) v)[q]? = v[q]? := by
  induction is generalizing v with
  | nil => rfl
  | cons i is ih =>
    rw [List.foldl_cons, ih _ (fun j hj => h j (by simp [hj])),
      Vector.getElem?_setIfInBounds_ne (h i (by simp))]

/-! ### Block copies -/

/-- The arguments of a `memcpy` or `memmove`, as offsets into the two arrays. -/
structure BlockCopy where
  target : ℕ
  source : ℕ
  size : ℕ
  deriving DecidableEq

namespace BlockCopy

variable {α : Type*} {c : BlockCopy} {target source : List α}

/-- All bytes are read and written inside arrays of these sizes. -/
def Within (c : BlockCopy) (targetSize sourceSize : ℕ) : Prop :=
  c.target + c.size ≤ targetSize ∧ c.source + c.size ≤ sourceSize

instance (targetSize sourceSize : ℕ) : Decidable (c.Within targetSize sourceSize) :=
  inferInstanceAs (Decidable (_ ∧ _))

/-- The target array afterwards. The source block is as it was before, so the two may overlap. -/
def apply (c : BlockCopy) (target source : List α) : List α :=
  target.take c.target ++ (source.drop c.source).take c.size ++ target.drop (c.target + c.size)

/-- What is overwritten, with all that stands before it. -/
theorem written_length (h : c.Within target.length source.length) :
    (target.take c.target ++ (source.drop c.source).take c.size).length = c.target + c.size := by
  obtain ⟨htarget, hsource⟩ := h
  rw [List.length_append, List.length_take, List.length_take, List.length_drop]
  omega

theorem apply_length (h : c.Within target.length source.length) :
    (c.apply target source).length = target.length := by
  have hwritten := written_length h
  obtain ⟨htarget, -⟩ := h
  rw [apply, List.length_append, hwritten, List.length_drop]
  omega

theorem take_apply (h : c.Within target.length source.length) :
    (c.apply target source).take (c.target + c.size) =
      target.take c.target ++ (source.drop c.source).take c.size :=
  List.take_left' (written_length h)

/-- Beyond the written block only target bytes are added. -/
theorem take_apply_add (h : c.Within target.length source.length) (n : ℕ) :
    (c.apply target source).take (c.target + c.size + n) =
      target.take c.target ++ (source.drop c.source).take c.size ++
        (target.drop (c.target + c.size)).take n := by
  rw [apply, ← written_length h, List.take_length_add_append]

end BlockCopy

end HashCompress.StoreLoop
