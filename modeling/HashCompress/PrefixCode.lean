import Mathlib

/-!
# Prefix codes and padding

A message is the concatenation of the code words of its symbols, with some copies of a filler
behind it. If no code word is the beginning of another, two messages that look alike differ only in
symbols that look like filler.
-/
namespace HashCompress.PrefixCode

variable {α β : Type} {S : Set α} {enc : α → List β}

/-- No symbol's code word begins with another symbol's code word. -/
def PrefixFree (S : Set α) (enc : α → List β) : Prop :=
  ∀ a ∈ S, ∀ b ∈ S, enc a <+: enc b → a = b

lemma PrefixFree.eq_of_append (h : PrefixFree S enc) {a b : α} (ha : a ∈ S) (hb : b ∈ S)
    {xs ys : List β} (heq : enc a ++ xs = enc b ++ ys) : a = b ∧ xs = ys := by
  have hab : a = b := by
    have hleft : enc a <+: enc a ++ xs := List.prefix_append _ _
    have hright : enc b <+: enc a ++ xs := heq ▸ List.prefix_append _ _
    rcases le_total (enc a).length (enc b).length with hle | hle
    · exact h a ha b hb (List.prefix_of_prefix_length_le hleft hright hle)
    · exact (h b hb a ha (List.prefix_of_prefix_length_le hright hleft hle)).symm
  subst hab
  exact ⟨rfl, List.append_cancel_left heq⟩

/-- Of two messages that are equal with their filler, one is the other and then symbols whose code
words are filler. -/
theorem PrefixFree.flatMap_filled (h : PrefixFree S enc) {as bs : List α} (ha : ∀ a ∈ as, a ∈ S)
    (hb : ∀ b ∈ bs, b ∈ S) {z : β} {m n : ℕ}
    (heq : as.flatMap enc ++ List.replicate m z = bs.flatMap enc ++ List.replicate n z) :
    ∃ rest, (bs = as ++ rest ∧ rest.flatMap enc ++ List.replicate n z = List.replicate m z) ∨
      (as = bs ++ rest ∧ rest.flatMap enc ++ List.replicate m z = List.replicate n z) := by
  induction as generalizing bs with
  | nil => exact ⟨bs, Or.inl ⟨rfl, heq.symm⟩⟩
  | cons a as ih =>
    cases bs with
    | nil => exact ⟨a :: as, Or.inr ⟨rfl, heq⟩⟩
    | cons b bs =>
      rw [List.flatMap_cons, List.flatMap_cons, List.append_assoc, List.append_assoc] at heq
      obtain ⟨rfl, hrest⟩ := h.eq_of_append (ha a List.mem_cons_self) (hb b List.mem_cons_self) heq
      obtain ⟨rest, hcase⟩ := ih (fun x hx => ha x (List.mem_cons_of_mem _ hx))
        (fun x hx => hb x (List.mem_cons_of_mem _ hx)) hrest
      refine ⟨rest, ?_⟩
      rcases hcase with ⟨rfl, hfill⟩ | ⟨rfl, hfill⟩
      · exact Or.inl ⟨rfl, hfill⟩
      · exact Or.inr ⟨rfl, hfill⟩

end HashCompress.PrefixCode
