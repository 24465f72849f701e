import HashCompress.NearestNeighbours

/-! What both `kNNClassify` compute: the label of a nearest point in the Euclidean metric, whatever
`k` is. -/
namespace HashCompress.NearestNeighbours

section Nearest

variable {ι L : Type*} [Fintype ι]

/-- The point in Euclidean space. -/
noncomputable def point (x : ι → ℤ) : EuclideanSpace ℝ ι := WithLp.toLp 2 fun i => (x i : ℝ)

/-- A labelled point of the data set than which none is nearer to `x`. -/
def IsNearest (data : List ((ι → ℤ) × L)) (x : ι → ℤ) (entry : (ι → ℤ) × L) : Prop :=
  entry ∈ data ∧ ∀ other ∈ data, dist (point x) (point entry.1) ≤ dist (point x) (point other.1)

/-- All nearest points of `x` have the same label. -/
def Decided (data : List ((ι → ℤ) × L)) (x : ι → ℤ) : Prop :=
  ∀ a b, IsNearest data x a → IsNearest data x b → a.2 = b.2

/-- Squared distances are compared like distances. -/
lemma dist_le_iff (x p q : ι → ℤ) : dist (point x) (point p) ≤ dist (point x) (point q) ↔
    squaredDistance x p ≤ squaredDistance x q := by
  have hsquare : ∀ y : ι → ℤ, ∑ i, dist ((point x) i) ((point y) i) ^ 2 =
      (squaredDistance x y : ℝ) := by
    intro y
    rw [squaredDistance, Int.cast_sum]
    refine Finset.sum_congr rfl fun i _ => ?_
    rw [Real.dist_eq, sq_abs, point, point, Int.cast_pow, Int.cast_abs, sq_abs]
    push_cast
    ring
  rw [EuclideanSpace.dist_eq, EuclideanSpace.dist_eq, hsquare, hsquare,
    Real.sqrt_le_sqrt_iff (by
      rw [← hsquare]
      positivity)]
  exact Int.cast_le

lemma IsNearest.perm {data data' : List ((ι → ℤ) × L)} (hperm : data.Perm data') {x : ι → ℤ}
    {entry : (ι → ℤ) × L} (h : IsNearest data x entry) : IsNearest data' x entry :=
  ⟨hperm.mem_iff.mp h.1, fun other hother => h.2 other (hperm.mem_iff.mpr hother)⟩

end Nearest

section Classified

variable {ι L : Type*} [Fintype ι] {argsort : List ℚ → List ℕ} (h : IsArgsort argsort)
  {dataSet : List (ι → ℤ)} {labels : List L} (hlabels : labels.length = dataSet.length)
  (hne : dataSet ≠ []) {k : ℕ} (hk : 1 ≤ k)

/-- The counter sees every index once, so that the first-ranked point is taken. -/
lemma classifyPoint_first (h : IsArgsort argsort) (hk : 1 ≤ k) (x : ι → ℤ) :
    classifyPoint argsort dataSet labels k x =
      (ranking argsort dataSet x).head?.bind fun i => labels[i]? := by
  have hnodup : ((ranking argsort dataSet x).take k).Nodup :=
    ((ranking_perm h dataSet x).nodup_iff.mpr List.nodup_range).sublist (List.take_sublist _ _)
  unfold classifyPoint
  dsimp only
  rw [mostCommon_counter_of_nodup hnodup]
  obtain ⟨k, rfl⟩ := Nat.exists_eq_add_of_le' hk
  cases ranking argsort dataSet x with
  | nil => rfl
  | cons i rest => rfl

include h hlabels hne hk

lemma classifyPoint_nearest (x : ι → ℤ) : ∃ entry, classifyPoint argsort dataSet labels k x =
    some entry.2 ∧ IsNearest (dataSet.zip labels) x entry := by
  have hperm := ranking_perm h dataSet x
  have hsorted := ranking_sorted h dataSet x
  rw [classifyPoint_first h hk]
  cases hrank : ranking argsort dataSet x with
  | nil =>
    rw [hrank, List.nil_perm, List.range_eq_nil, List.length_eq_zero_iff] at hperm
    exact absurd hperm hne
  | cons i rest =>
    rw [hrank] at hperm hsorted
    have hi : i < dataSet.length := List.mem_range.mp (hperm.mem_iff.mp List.mem_cons_self)
    refine ⟨(dataSet[i], labels[i]), ?_, ?_, ?_⟩
    · simp [hlabels, hi]
    · exact List.mem_iff_getElem.mpr ⟨i, by simpa [hlabels] using hi, List.getElem_zip⟩
    · intro other hother
      obtain ⟨j, hj, rfl⟩ := List.mem_iff_getElem.mp hother
      rw [List.length_zip] at hj
      rw [List.getElem_zip, dist_le_iff]
      have hvalue : ∀ n (hn : n < dataSet.length), (dataSet.map (squaredDistance x)).getD n 0 =
          squaredDistance x dataSet[n] := by
        intro n hn
        rw [List.getD_eq_getElem _ _ (by simpa using hn), List.getElem_map]
      have hmem : j ∈ i :: rest := hperm.mem_iff.mpr (List.mem_range.mpr (by omega))
      rcases List.mem_cons.mp hmem with rfl | hmem
      · exact le_rfl
      · have hle := List.rel_of_pairwise_cons hsorted hmem
        rwa [hvalue i hi, hvalue j (by omega)] at hle

end Classified

lemma mapM_eq_of_forall {α β : Type*} {f g : α → Option β} {xs : List α}
    (h : ∀ x ∈ xs, f x = g x) : xs.mapM f = xs.mapM g := by
  induction xs with
  | nil => rfl
  | cons x xs ih =>
    rw [List.mapM_cons, List.mapM_cons, h x List.mem_cons_self,
      ih fun y hy => h y (List.mem_cons_of_mem _ hy)]

end HashCompress.NearestNeighbours
