import Mathlib

/-!
# Tries over lists of keys

A node holds a value and its children under keys. Looking at a path that has no node gives the
value `fresh` of a new node, so that creating the nodes on the way to a path cannot be observed.
-/
namespace HashCompress.KeyTrie

inductive Trie (κ β : Type*) where
  | node (info : β) (children : List (κ × Trie κ β))

namespace Trie

variable {κ β : Type*} [DecidableEq κ]

def info : Trie κ β → β
  | node b _ => b

def children : Trie κ β → List (κ × Trie κ β)
  | node _ cs => cs

def leaf (b : β) : Trie κ β := node b []

def child? (t : Trie κ β) (k : κ) : Option (Trie κ β) := t.children.lookup k

def setChild (t : Trie κ β) (k : κ) (c : Trie κ β) : Trie κ β :=
  node t.info ((k, c) :: t.children.filter fun x => x.1 ≠ k)

/-- Change the value at the end of a path, creating the nodes on the way to it. -/
def modifyAt (fresh : β) (f : β → β) : List κ → Trie κ β → Trie κ β
  | [], t => node (f t.info) t.children
  | k :: path, t => t.setChild k (modifyAt fresh f path ((t.child? k).getD (leaf fresh)))

def infoAt (fresh : β) : List κ → Trie κ β → β
  | [], t => t.info
  | k :: path, t =>
    match t.child? k with
    | some c => infoAt fresh path c
    | none => fresh

lemma lookup_filter_ne {γ : Type*} (l : List (κ × γ)) {k k' : κ} (h : k' ≠ k) :
    (l.filter fun x => x.1 ≠ k).lookup k' = l.lookup k' := by
  induction l with
  | nil => rfl
  | cons x l ih =>
    obtain ⟨a, c⟩ := x
    by_cases ha : a = k
    · have hk : (k' == a) = false := by simp [ha, h]
      simp only [List.filter_cons, ha, ne_eq, not_true_eq_false, decide_false, Bool.false_eq_true,
        if_false, List.lookup_cons]
      rw [← ha, hk]
      simpa [ha] using ih
    · simp only [List.filter_cons, ne_eq, ha, not_false_eq_true, decide_true, if_true,
        List.lookup_cons]
      split
      · rfl
      · simpa using ih

lemma child?_setChild (t : Trie κ β) (k k' : κ) (c : Trie κ β) :
    (t.setChild k c).child? k' = if k' = k then some c else t.child? k' := by
  unfold child? setChild
  simp only [children, List.lookup_cons]
  split_ifs with h
  · simp [h]
  · have hk : (k' == k) = false := by simp [h]
    rw [hk]
    exact lookup_filter_ne t.children h

@[simp] lemma info_setChild (t : Trie κ β) (k : κ) (c : Trie κ β) :
    (t.setChild k c).info = t.info := rfl

@[simp] lemma infoAt_leaf (fresh : β) (path : List κ) : infoAt fresh path (leaf fresh) = fresh := by
  cases path <;> rfl

lemma infoAt_cons (fresh : β) (k : κ) (path : List κ) (t : Trie κ β) :
    infoAt fresh (k :: path) t = infoAt fresh path ((t.child? k).getD (leaf fresh)) := by
  rw [infoAt]
  cases t.child? k with
  | none => simp
  | some c => rfl

/-- Only the value at the path itself changes. -/
theorem infoAt_modifyAt (fresh : β) (f : β → β) (path path' : List κ) (t : Trie κ β) :
    infoAt fresh path' (modifyAt fresh f path t) =
      if path' = path then f (infoAt fresh path t) else infoAt fresh path' t := by
  induction path generalizing path' t with
  | nil =>
    cases path' with
    | nil => rfl
    | cons k path' =>
      simp only [modifyAt, infoAt_cons, reduceCtorEq, if_false]
      rfl
  | cons k path ih =>
    cases path' with
    | nil => simp [modifyAt, infoAt]
    | cons k' path' =>
      simp only [modifyAt, infoAt_cons, child?_setChild, List.cons.injEq]
      by_cases hk : k' = k
      · simp [hk, ih]
      · simp [hk]

end Trie

end HashCompress.KeyTrie
