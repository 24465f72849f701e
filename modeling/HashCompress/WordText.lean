import HashCompress.InputStream

/-!
# Words in a line of text

Joining words with single blanks, and taking a line apart at white space.
-/
namespace HashCompress.WordText

open InputStream

def joinWords (words : List (List UInt8)) : List UInt8 := [32].intercalate words

/-- The words that `>>` into a string takes from a stream one after the other. -/
def splitWords (text : List UInt8) : List (List UInt8) :=
  (text.splitOnP isSpace).filter (· ≠ [])

/-- A word that a stream gives back as a whole. -/
structure IsToken (w : List UInt8) : Prop where
  ne_nil : w ≠ []
  solid : ∀ b ∈ w, isSpace b = false

theorem splitWords_joinWords {words : List (List UInt8)} (h : ∀ w ∈ words, IsToken w) :
    splitWords (joinWords words) = words := by
  induction words with
  | nil => rfl
  | cons w words ih =>
    have hw := h w List.mem_cons_self
    have hrest := ih fun v hv => h v (List.mem_cons_of_mem _ hv)
    cases words with
    | nil =>
      rw [splitWords, joinWords, List.intercalate_singleton, List.splitOnP_eq_singleton hw.solid]
      simp [hw.ne_nil]
    | cons v words =>
      unfold splitWords joinWords at hrest ⊢
      rw [List.intercalate_cons_cons, List.append_assoc, List.singleton_append,
        List.splitOnP_append_cons_of_forall_mem hw.solid 32 (by decide), List.filter_cons, hrest]
      simp [hw.ne_nil]

theorem joinWords_injOn : Set.InjOn joinWords {words | ∀ w ∈ words, IsToken w} := by
  intro xs hxs ys hys heq
  rw [← splitWords_joinWords hxs, ← splitWords_joinWords hys, heq]

end HashCompress.WordText
