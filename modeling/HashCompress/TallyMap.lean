import Mathlib

/-!
# Maps filled entry by entry

Association maps that a loop fills through `m[k]`, counters among them, the orders in which such a
map can be traversed, and lists to which only new elements are appended.
-/
namespace HashCompress.TallyMap

section Upsert

variable {κ ν α : Type*} [DecidableEq κ]

/-- `m[k]` updated in place; a missing entry starts as `init`. -/
def upsert (m : AList fun _ : κ => ν) (k : κ) (init : ν) (f : ν → ν) : AList fun _ : κ => ν :=
  m.insert k (f ((m.lookup k).getD init))

/-- The map that a loop over keyed elements fills. -/
def collect (init : ν) (step : ν → α → ν) (l : List (κ × α)) : AList fun _ : κ => ν :=
  l.foldl (fun m x => upsert m x.1 init fun v => step v x.2) ∅

lemma lookup_upsert (m : AList fun _ : κ => ν) (k k' : κ) (init : ν) (f : ν → ν) :
    (upsert m k init f).lookup k' =
      if k' = k then some (f ((m.lookup k).getD init)) else m.lookup k' := by
  unfold upsert
  split_ifs with h
  · rw [h, AList.lookup_insert]
  · rw [AList.lookup_insert_ne h]

/-- The elements with key `k`, in order. -/
def valuesAt (k : κ) (l : List (κ × α)) : List α := (l.filter fun x => x.1 = k).map Prod.snd

lemma valuesAt_cons (k : κ) (x : κ × α) (l : List (κ × α)) :
    valuesAt k (x :: l) = if x.1 = k then x.2 :: valuesAt k l else valuesAt k l := by
  unfold valuesAt
  by_cases h : x.1 = k <;> simp [h]

lemma lookup_foldl_upsert (init : ν) (step : ν → α → ν) (l : List (κ × α))
    (m : AList fun _ : κ => ν) (k : κ) :
    (l.foldl (fun m x => upsert m x.1 init fun v => step v x.2) m).lookup k =
      if valuesAt k l = [] then m.lookup k
      else some ((valuesAt k l).foldl step ((m.lookup k).getD init)) := by
  induction l generalizing m with
  | nil => simp [valuesAt]
  | cons x l ih =>
    rw [List.foldl_cons, ih, lookup_upsert, valuesAt_cons]
    by_cases h : x.1 = k
    · subst h
      by_cases hv : valuesAt x.1 l = [] <;> simp [hv]
    · have h' : k ≠ x.1 := fun e => h e.symm
      simp [h, h']

theorem lookup_collect (init : ν) (step : ν → α → ν) (l : List (κ × α)) (k : κ) :
    (collect init step l).lookup k =
      if valuesAt k l = [] then none else some ((valuesAt k l).foldl step init) := by
  rw [collect, lookup_foldl_upsert, AList.lookup_empty]
  rfl

theorem mem_entries_collect {init : ν} {step : ν → α → ν} {l : List (κ × α)} {k : κ} {v : ν} :
    (⟨k, v⟩ : Sigma fun _ : κ => ν) ∈ (collect init step l).entries ↔
      valuesAt k l ≠ [] ∧ v = (valuesAt k l).foldl step init := by
  rw [← AList.mem_lookup_iff, lookup_collect]
  split_ifs with h <;> simp [h, eq_comm]

/-! ### Counters -/

/-- `m[k]++` for every element. -/
def tally (l : List κ) : AList fun _ : κ => UInt32 :=
  l.foldl (fun m k => upsert m k 0 (· + 1)) ∅

lemma tally_eq_collect (l : List κ) :
    tally l = collect 0 (fun v (_ : Unit) => v + 1) (l.map fun k => (k, ())) := by
  rw [tally, collect, List.foldl_map]

lemma foldl_succ_eq {β : Type*} (l : List β) (v : UInt32) :
    l.foldl (fun v _ => v + 1) v = v + UInt32.ofNat l.length := by
  induction l generalizing v with
  | nil => simp
  | cons x l ih =>
    rw [List.foldl_cons, ih, List.length_cons, UInt32.ofNat_add, UInt32.add_assoc,
      UInt32.add_comm 1]
    rfl

theorem mem_entries_tally {l : List κ} {k : κ} {v : UInt32} :
    (⟨k, v⟩ : Sigma fun _ : κ => UInt32) ∈ (tally l).entries ↔
      k ∈ l ∧ v = UInt32.ofNat (l.countP fun x => x = k) := by
  have hvalues : (valuesAt k (l.map fun k => (k, ()))).length = l.countP fun x => x = k := by
    rw [valuesAt, List.length_map, List.filter_map, List.length_map, List.countP_eq_length_filter]
    rfl
  rw [tally_eq_collect, mem_entries_collect, foldl_succ_eq, hvalues, ← List.length_pos_iff, hvalues,
    List.countP_pos_iff]
  simp

lemma mem_tally {l : List κ} {k : κ} : k ∈ tally l ↔ k ∈ l := by
  rw [AList.mem_keys, AList.keys, List.mem_keys]
  simp [mem_entries_tally]

/-- The counters of all keys together count the elements. -/
theorem sum_tally (l : List κ) :
    ((tally l).entries.map fun e => e.2).sum = UInt32.ofNat l.length := by
  have hkeys : (tally l).keys.toFinset = l.toFinset := by
    ext k
    rw [List.mem_toFinset, List.mem_toFinset, ← AList.mem_keys, mem_tally]
  have hmap : (tally l).entries.map (fun e => e.2) =
      (tally l).keys.map fun k => UInt32.ofNat (l.count k) := by
    rw [AList.keys, List.keys, List.map_map]
    refine List.map_congr_left fun e he => ?_
    exact (mem_entries_tally.mp he).2.trans (by simp [List.count_eq_countP, beq_eq_decide])
  have hsum : ∀ ks : List κ, (ks.map fun k => UInt32.ofNat (l.count k)).sum =
      UInt32.ofNat (ks.map fun k => l.count k).sum := by
    intro ks
    induction ks with
    | nil => rfl
    | cons k ks ih => simp [ih, UInt32.ofNat_add]
  rw [hmap, hsum, ← List.sum_toFinset _ (tally l).keys_nodup, hkeys, List.sum_toFinset_count_eq_length]

end Upsert

/-- An order in which a traversal can visit the elements. -/
structure IterOrder (α : Type*) where
  run : List α → List α
  perm : ∀ l, (run l).Perm l

def IterOrder.same (α : Type*) : IterOrder α := ⟨fun l => l, fun _ => List.Perm.refl _⟩

/-- A sort that leaves no element behind one that must come after it; the order of the others is
left open. -/
structure SortOrder (α : Type*) (before : α → α → Prop) extends IterOrder α where
  sorted : ∀ l, (run l).Pairwise fun a b => ¬ before b a

/-! ### Appending what is new -/

section AppendNew

variable {α : Type*} [DecidableEq α]

def appendNew (l xs : List α) : List α := xs.foldl (fun l x => if x ∈ l then l else l ++ [x]) l

lemma appendNew_cons (l : List α) (x : α) (xs : List α) :
    appendNew l (x :: xs) = appendNew (if x ∈ l then l else l ++ [x]) xs := rfl

lemma appendNew_append (l xs ys : List α) : appendNew l (xs ++ ys) = appendNew (appendNew l xs) ys :=
  List.foldl_append

lemma prefix_appendNew (l xs : List α) : l <+: appendNew l xs := by
  induction xs generalizing l with
  | nil => exact List.prefix_rfl
  | cons x xs ih =>
    rw [appendNew_cons]
    refine List.IsPrefix.trans ?_ (ih _)
    split_ifs
    · exact List.prefix_rfl
    · exact List.prefix_append l [x]

lemma mem_appendNew {l xs : List α} {y : α} : y ∈ appendNew l xs ↔ y ∈ l ∨ y ∈ xs := by
  induction xs generalizing l with
  | nil => simp [appendNew]
  | cons x xs ih =>
    rw [appendNew_cons, ih, List.mem_cons]
    split_ifs with h
    · constructor
      · tauto
      · rintro (hy | rfl | hy)
        · exact Or.inl hy
        · exact Or.inl h
        · exact Or.inr hy
    · rw [List.mem_append, List.mem_singleton, or_assoc]

theorem length_appendNew (l xs : List α) :
    (appendNew l xs).length = l.length + (xs.toFinset \ l.toFinset).card := by
  induction xs generalizing l with
  | nil => simp [appendNew]
  | cons x xs ih =>
    rw [appendNew_cons, ih, List.toFinset_cons]
    split_ifs with h
    · rw [Finset.insert_sdiff_of_mem _ (List.mem_toFinset.mpr h)]
    · have hnew : x ∉ l.toFinset := fun hx => h (List.mem_toFinset.mp hx)
      have hsplit : insert x xs.toFinset \ l.toFinset =
          insert x (xs.toFinset \ (l ++ [x]).toFinset) := by
        ext y
        by_cases hy : y = x
        · simp [hy, h]
        · simp [hy]
      rw [hsplit, Finset.card_insert_of_notMem (by simp), List.length_append, List.length_singleton]
      ring

end AppendNew

/-! ### The last element with a key -/

section LastWith

variable {α κ : Type*} [DecidableEq κ] {key : α → κ} {k : κ} {l : List α} {x : α}

def lastWith (key : α → κ) (k : κ) (l : List α) : Option α := l.reverse.find? fun x => key x = k

lemma lastWith_snoc : lastWith key k (l ++ [x]) = if key x = k then some x else lastWith key k l := by
  unfold lastWith
  rw [List.reverse_append, List.reverse_singleton, List.singleton_append, List.find?_cons]
  by_cases h : key x = k <;> simp [h]

lemma lastWith_append {l' : List α} :
    lastWith key k (l ++ l') = (lastWith key k l').or (lastWith key k l) := by
  unfold lastWith
  rw [List.reverse_append, List.find?_append]

lemma lastWith_isSome : (lastWith key k l).isSome ↔ ∃ x ∈ l, key x = k := by
  simp [lastWith]

lemma mem_of_lastWith (h : lastWith key k l = some x) : x ∈ l ∧ key x = k :=
  ⟨List.mem_reverse.mp (List.mem_of_find?_eq_some h), by simpa using List.find?_some h⟩

end LastWith

/-- A fold that takes only the selected elements, with an invariant that speaks of what was made of
the elements taken so far. -/
theorem foldl_selected {α β σ : Type*} {P : List β → σ → Prop} {sel : α → Prop} [DecidablePred sel]
    {step : σ → α → σ} (mk : α → β) {xs : List α}
    (hstep : ∀ x ∈ xs, ∀ bs s, P bs s → P (bs ++ [mk x]) (step s x)) {bs : List β} {s : σ}
    (h : P bs s) :
    P (bs ++ (xs.filter fun x => sel x).map mk)
      (xs.foldl (fun s x => if sel x then step s x else s) s) := by
  induction xs generalizing bs s with
  | nil => simpa using h
  | cons x xs ih =>
    have hstep' : ∀ y ∈ xs, ∀ bs s, P bs s → P (bs ++ [mk y]) (step s y) :=
      fun y hy => hstep y (List.mem_cons_of_mem _ hy)
    rw [List.foldl_cons]
    by_cases hsel : sel x
    · rw [if_pos hsel]
      simpa [hsel] using ih hstep' (hstep x List.mem_cons_self bs s h)
    · rw [if_neg hsel]
      simpa [hsel] using ih hstep' h

end HashCompress.TallyMap
