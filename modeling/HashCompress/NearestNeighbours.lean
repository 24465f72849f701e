import Mathlib

/-! `kNNClassify` of `knn.py` and `miniknn.py`. Both count with `Counter(neigh)`, where `neigh` are
the indices of the neighbours and not their labels. -/
namespace HashCompress.NearestNeighbours

section Counter

variable {α : Type*} [DecidableEq α]

/-- One more occurrence of `x`; a new element goes to the end. -/
def countElement : List (α × ℕ) → α → List (α × ℕ)
  | [], x => [(x, 1)]
  | (y, n) :: counts, x =>
    if y = x then (y, n + 1) :: counts else (y, n) :: countElement counts x

/-- `collections.Counter`, its entries in the order of their first occurrence. -/
def counter (xs : List α) : List (α × ℕ) := xs.foldl countElement []

/-- Sorted by count, highest first; entries of equal count stay in their order. -/
def mostCommon (counts : List (α × ℕ)) : List (α × ℕ) :=
  counts.insertionSort fun a b => b.2 ≤ a.2

lemma countElement_new (counts : List (α × ℕ)) {x : α} (h : x ∉ counts.map Prod.fst) :
    countElement counts x = counts ++ [(x, 1)] := by
  induction counts with
  | nil => rfl
  | cons entry counts ih =>
    rw [List.map_cons, List.mem_cons, not_or] at h
    rw [countElement, if_neg (Ne.symm h.1), ih h.2, List.cons_append]

lemma foldl_countElement_of_nodup {xs : List α} (hxs : xs.Nodup) (counts : List (α × ℕ))
    (hnew : ∀ x ∈ xs, x ∉ counts.map Prod.fst) :
    xs.foldl countElement counts = counts ++ xs.map fun x => (x, 1) := by
  induction xs generalizing counts with
  | nil => exact (List.append_nil _).symm
  | cons x xs ih =>
    obtain ⟨hx, hxs⟩ := List.nodup_cons.mp hxs
    rw [List.foldl_cons, countElement_new counts (hnew x List.mem_cons_self), ih hxs, List.map_cons,
      List.append_assoc]
    · rfl
    · intro y hy
      rw [List.map_append, List.mem_append, not_or]
      refine ⟨hnew y (List.mem_cons_of_mem _ hy), ?_⟩
      rw [List.map_singleton, List.mem_singleton]
      rintro rfl
      exact hx hy

lemma mostCommon_counter_of_nodup {xs : List α} (hxs : xs.Nodup) :
    mostCommon (counter xs) = xs.map fun x => (x, 1) := by
  have hcounter : counter xs = xs.map fun x => (x, 1) :=
    foldl_countElement_of_nodup hxs [] fun x _ => List.not_mem_nil
  rw [hcounter, mostCommon]
  apply List.Pairwise.insertionSort_eq
  rw [List.pairwise_map]
  exact List.pairwise_of_forall fun x y => le_rfl

end Counter

/-! ### The classifier -/

section Classifier

variable {ι L : Type*} [Fintype ι] [DecidableEq L]

def squaredDistance (x y : ι → ℤ) : ℤ := ∑ i, |y i - x i| ^ 2

/-- The source's `** 1/2` is the first power, halved. -/
def distance (x y : ι → ℤ) : ℚ := (squaredDistance x y : ℚ) ^ 1 / 2

def ranking (argsort : List ℚ → List ℕ) (dataSet : List (ι → ℤ)) (x : ι → ℤ) : List ℕ :=
  argsort (dataSet.map (distance x))

/-- The loop body: the label of the index that the counter puts first. -/
def classifyPoint (argsort : List ℚ → List ℕ) (dataSet : List (ι → ℤ)) (labels : List L) (k : ℕ)
    (x : ι → ℤ) : Option L :=
  let neigh := (ranking argsort dataSet x).take k
  (mostCommon (counter neigh)).head?.bind fun m => labels[m.1]?

def classify (argsort : List ℚ → List ℕ) (newInput dataSet : List (ι → ℤ)) (labels : List L)
    (k : ℕ) : Option (List L) :=
  newInput.mapM (classifyPoint argsort dataSet labels k)

/-- What `argsort` promises: all indices, by increasing value, and equal values in any order. -/
structure IsArgsort (argsort : List ℚ → List ℕ) : Prop where
  perm (d : List ℚ) : (argsort d).Perm (List.range d.length)
  sorted (d : List ℚ) : (argsort d).Pairwise fun i j => d.getD i 0 ≤ d.getD j 0

def neighbourLabels (argsort : List ℚ → List ℕ) (dataSet : List (ι → ℤ)) (labels : List L) (k : ℕ)
    (x : ι → ℤ) : List L :=
  ((ranking argsort dataSet x).take k).filterMap fun i => labels[i]?

def MostFrequent (label : L) (among : List L) : Prop :=
  label ∈ among ∧ ∀ other, among.count other ≤ among.count label

/-- Every test point gets a label, one that occurs most often among those of its neighbours. -/
def VotesCorrectly (argsort : List ℚ → List ℕ) (newInput dataSet : List (ι → ℤ)) (labels : List L)
    (k : ℕ) (result : Option (List L)) : Prop :=
  ∃ assigned, result = some assigned ∧
    List.Forall₂ (fun x label => MostFrequent label (neighbourLabels argsort dataSet labels k x))
      newInput assigned

/-- For every test point the label of the very first neighbour is already one of the most frequent
ones. -/
def NearestWins (argsort : List ℚ → List ℕ) (newInput dataSet : List (ι → ℤ)) (labels : List L)
    (k : ℕ) : Prop :=
  ∀ x ∈ newInput, ∀ label, (neighbourLabels argsort dataSet labels k x).head? = some label →
    MostFrequent label (neighbourLabels argsort dataSet labels k x)

lemma mapM_forall₂_iff {α β : Type*} (f : α → Option β) (P : α → β → Prop) (xs : List α) :
    (∃ ys, xs.mapM f = some ys ∧ List.Forall₂ P xs ys) ↔ ∀ x ∈ xs, ∃ y, f x = some y ∧ P x y := by
  induction xs with
  | nil => exact iff_of_true ⟨[], rfl, .nil⟩ (List.forall_mem_nil _)
  | cons x xs ih =>
    rw [List.forall_mem_cons, ← ih]
    constructor
    · rintro ⟨ys, hys, hall⟩
      rw [List.mapM_cons] at hys
      obtain ⟨y, hy, hrest⟩ := Option.bind_eq_some_iff.mp hys
      obtain ⟨zs, hzs, hsplit⟩ := Option.bind_eq_some_iff.mp hrest
      cases hsplit
      cases hall with
      | cons hhead htail => exact ⟨⟨y, hy, hhead⟩, zs, hzs, htail⟩
    · rintro ⟨⟨y, hy, hP⟩, ys, hys, hall⟩
      refine ⟨y :: ys, ?_, .cons hP hall⟩
      rw [List.mapM_cons, hy, hys]
      rfl

section Ranking

variable {argsort : List ℚ → List ℕ} (h : IsArgsort argsort)
include h

lemma ranking_perm (dataSet : List (ι → ℤ)) (x : ι → ℤ) :
    (ranking argsort dataSet x).Perm (List.range dataSet.length) := by
  have hperm := h.perm (dataSet.map (distance x))
  rwa [List.length_map] at hperm

lemma ranking_sorted (dataSet : List (ι → ℤ)) (x : ι → ℤ) :
    (ranking argsort dataSet x).Pairwise fun i j =>
      (dataSet.map (squaredDistance x)).getD i 0 ≤ (dataSet.map (squaredDistance x)).getD j 0 := by
  refine (h.sorted (dataSet.map (distance x))).imp ?_
  intro i j hij
  have hhalf : ∀ n, (dataSet.map (distance x)).getD n 0 =
      ((dataSet.map (squaredDistance x)).getD n 0 : ℚ) / 2 := by
    intro n
    rw [List.getD_eq_getElem?_getD, List.getD_eq_getElem?_getD, List.getElem?_map, List.getElem?_map]
    cases dataSet[n]? with
    | none => simp
    | some y => simp [distance]
  rw [hhalf, hhalf] at hij
  have hcast := (div_le_div_iff_of_pos_right (by norm_num : (0 : ℚ) < 2)).mp hij
  exact_mod_cast hcast

/-- The counter sees every index once, so its first entry is the first-ranked point. -/
lemma classifyPoint_eq {dataSet : List (ι → ℤ)} {labels : List L} {k : ℕ}
    (hlabels : labels.length = dataSet.length) (hk : 1 ≤ k) (hk' : k ≤ dataSet.length) (x : ι → ℤ) :
    classifyPoint argsort dataSet labels k x = (neighbourLabels argsort dataSet labels k x).head? ∧
      (neighbourLabels argsort dataSet labels k x).length = k := by
  have hperm := ranking_perm h dataSet x
  have hin : ∀ i ∈ (ranking argsort dataSet x).take k, i < labels.length := by
    intro i hi
    have hmem := hperm.mem_iff.mp (List.mem_of_mem_take hi)
    rw [hlabels]
    exact List.mem_range.mp hmem
  have hnodup : ((ranking argsort dataSet x).take k).Nodup :=
    (hperm.nodup_iff.mpr List.nodup_range).sublist (List.take_sublist _ _)
  have hlen : ((ranking argsort dataSet x).take k).length = k := by
    rw [List.length_take, hperm.length_eq, List.length_range]
    omega
  unfold classifyPoint neighbourLabels
  dsimp only
  rw [mostCommon_counter_of_nodup hnodup]
  generalize (ranking argsort dataSet x).take k = neigh at hin hlen
  constructor
  · cases neigh with
    | nil => simp at hlen; omega
    | cons i neigh =>
      have hi : i < labels.length := hin i List.mem_cons_self
      rw [List.filterMap_cons, List.getElem?_eq_getElem hi]
      simp [hi]
  · rw [← hlen, List.length_filterMap_eq_countP, List.countP_eq_length]
    intro i hi
    rw [List.getElem?_eq_getElem (hin i hi)]
    rfl

lemma classify_votes_iff {newInput dataSet : List (ι → ℤ)} {labels : List L} {k : ℕ}
    (hlabels : labels.length = dataSet.length) (hk : 1 ≤ k) (hk' : k ≤ dataSet.length) :
    VotesCorrectly argsort newInput dataSet labels k (classify argsort newInput dataSet labels k) ↔
      NearestWins argsort newInput dataSet labels k := by
  unfold VotesCorrectly NearestWins classify
  rw [mapM_forall₂_iff]
  apply forall₂_congr
  intro x _
  obtain ⟨hpoint, hlen⟩ := classifyPoint_eq h hlabels hk hk' x
  rw [hpoint]
  constructor
  · rintro ⟨label, hlabel, hvote⟩ other hother
    rw [hlabel, Option.some.injEq] at hother
    exact hother ▸ hvote
  · intro hnearest
    have hne : neighbourLabels argsort dataSet labels k x ≠ [] := by
      intro hnil
      rw [hnil] at hlen
      simp at hlen
      omega
    have hhead := List.head?_eq_some_head hne
    exact ⟨_, hhead, hnearest _ hhead⟩

lemma nearestWins_of_le_two (newInput : List (ι → ℤ)) {dataSet : List (ι → ℤ)} {labels : List L}
    {k : ℕ} (hlabels : labels.length = dataSet.length) (hk : 1 ≤ k) (hk' : k ≤ dataSet.length)
    (htwo : k ≤ 2) : NearestWins argsort newInput dataSet labels k := by
  intro x _ label hlabel
  obtain ⟨-, hlen⟩ := classifyPoint_eq h hlabels hk hk' x
  generalize neighbourLabels argsort dataSet labels k x = among at hlabel hlen
  cases among with
  | nil => cases hlabel
  | cons first rest =>
    rw [List.head?_cons, Option.some.injEq] at hlabel
    subst hlabel
    refine ⟨List.mem_cons_self, fun other => ?_⟩
    have hrest : rest.count other ≤ rest.length := List.count_le_length
    rw [List.length_cons] at hlen
    by_cases heq : first = other
    · rw [heq]
    · rw [List.count_cons_of_ne heq, List.count_cons_self]
      omega

end Ranking

end Classifier

/-! ### The two programs -/

variable {L : Type*} [DecidableEq L]

/-- `knn.py`: images, with the distance summed over rows and columns. -/
def Knn.kNNClassify {rows columns : ℕ} (argsort : List ℚ → List ℕ)
    (newInput dataSet : List (Fin rows × Fin columns → ℤ)) (labels : List L) (k : ℕ) :
    Option (List L) :=
  classify argsort newInput dataSet labels k

def MiniKnn.kNNClassify {columns : ℕ} (argsort : List ℚ → List ℕ)
    (newInput dataSet : List (Fin columns → ℤ)) (labels : List L) (k : ℕ) : Option (List L) :=
  classify argsort newInput dataSet labels k

/-- In both programs, for every data set, batch and order of equidistant points: the neighbours are
ranked by squared distance, and the vote is right exactly if no label beats that of the first
neighbour, as it is with up to two of them. -/
theorem kNNClassify_votes_iff {argsort : List ℚ → List ℕ} (h : IsArgsort argsort) (labels : List L)
    (k : ℕ) (hk : 1 ≤ k ∧ k ≤ labels.length) :
    (∀ (rows columns : ℕ) (newInput dataSet : List (Fin rows × Fin columns → ℤ)),
      labels.length = dataSet.length →
      (∀ x, (ranking argsort dataSet x).Pairwise fun i j =>
        (dataSet.map (squaredDistance x)).getD i 0 ≤ (dataSet.map (squaredDistance x)).getD j 0) ∧
      (VotesCorrectly argsort newInput dataSet labels k
          (Knn.kNNClassify argsort newInput dataSet labels k) ↔
        NearestWins argsort newInput dataSet labels k) ∧
      (k ≤ 2 → NearestWins argsort newInput dataSet labels k)) ∧
    (∀ (columns : ℕ) (newInput dataSet : List (Fin columns → ℤ)),
      labels.length = dataSet.length →
      (∀ x, (ranking argsort dataSet x).Pairwise fun i j =>
        (dataSet.map (squaredDistance x)).getD i 0 ≤ (dataSet.map (squaredDistance x)).getD j 0) ∧
      (VotesCorrectly argsort newInput dataSet labels k
          (MiniKnn.kNNClassify argsort newInput dataSet labels k) ↔
        NearestWins argsort newInput dataSet labels k) ∧
      (k ≤ 2 → NearestWins argsort newInput dataSet labels k)) := by
  refine ⟨fun rows columns newInput dataSet hlabels => ?_,
    fun columns newInput dataSet hlabels => ?_⟩
  · exact ⟨ranking_sorted h dataSet, classify_votes_iff h hlabels hk.1 (hlabels ▸ hk.2),
      nearestWins_of_le_two h newInput hlabels hk.1 (hlabels ▸ hk.2)⟩
  · exact ⟨ranking_sorted h dataSet, classify_votes_iff h hlabels hk.1 (hlabels ▸ hk.2),
      nearestWins_of_le_two h newInput hlabels hk.1 (hlabels ▸ hk.2)⟩

def stableArgsort (d : List ℚ) : List ℕ :=
  (List.range d.length).insertionSort fun i j => d.getD i 0 ≤ d.getD j 0

lemma isArgsort_stableArgsort : IsArgsort stableArgsort where
  perm d := List.perm_insertionSort _ _
  sorted d := by
    have : Std.Total fun i j => d.getD i 0 ≤ d.getD j 0 := ⟨fun i j => le_total _ _⟩
    have : IsTrans ℕ fun i j => d.getD i 0 ≤ d.getD j 0 := ⟨fun i j l => le_trans⟩
    exact List.pairwise_insertionSort _ _

/-- Three points on a line, the first of them alone in its class. -/
def linePoints : List (Fin 1 → ℤ) := [fun _ => 0, fun _ => 1, fun _ => 2]

def lineImages : List (Fin 1 × Fin 1 → ℤ) := [fun _ => 0, fun _ => 1, fun _ => 2]

def lineLabels : List ℕ := [0, 1, 1]

theorem kNNClassify_votes_two_neighbours : VotesCorrectly stableArgsort linePoints linePoints
    lineLabels 2 (MiniKnn.kNNClassify stableArgsort linePoints linePoints lineLabels 2) := by
  obtain ⟨-, hvotes, htwo⟩ := (kNNClassify_votes_iff isArgsort_stableArgsort lineLabels 2
    (by decide)).2 1 linePoints linePoints rfl
  exact hvotes.mpr (htwo le_rfl)

/-- Two of the three neighbours have label 1, and both programs assign label 0. -/
theorem kNNClassify_outvoted :
    ¬ VotesCorrectly stableArgsort [fun _ => 0] linePoints lineLabels 3
        (MiniKnn.kNNClassify stableArgsort [fun _ => 0] linePoints lineLabels 3) ∧
      ¬ VotesCorrectly stableArgsort [fun _ => 0] lineImages lineLabels 3
        (Knn.kNNClassify stableArgsort [fun _ => 0] lineImages lineLabels 3) := by
  have hbeaten : ¬ MostFrequent 0 lineLabels := fun hmost => absurd (hmost.2 1) (by decide)
  have hpoints : neighbourLabels stableArgsort linePoints lineLabels 3 (fun _ => 0) = lineLabels := by
    decide +kernel
  have himages : neighbourLabels stableArgsort lineImages lineLabels 3 (fun _ => 0) = lineLabels := by
    decide +kernel
  constructor
  · intro hvotes
    have hwins := (classify_votes_iff isArgsort_stableArgsort
      (rfl : lineLabels.length = linePoints.length) (by decide) (by decide)).mp hvotes _
      List.mem_cons_self 0
    rw [hpoints] at hwins
    exact hbeaten (hwins rfl)
  · intro hvotes
    have hwins := (classify_votes_iff isArgsort_stableArgsort
      (rfl : lineLabels.length = lineImages.length) (by decide) (by decide)).mp hvotes _
      List.mem_cons_self 0
    rw [himages] at hwins
    exact hbeaten (hwins rfl)

end HashCompress.NearestNeighbours
