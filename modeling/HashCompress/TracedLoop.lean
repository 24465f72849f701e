import Mathlib

/-! Loops whose body reports what it accesses. A run is a finite derivation without any bound on the
number of turns, so it exists only if the loop ends. -/
namespace HashCompress.TracedLoop

variable {ε σ ρ : Type*}

/-- One turn of a loop: what it accesses, then the state to go on with or the result. -/
structure Turn (ε σ ρ : Type*) where
  accesses : List ε
  next : σ ⊕ ρ

/-- Entered in a state, the loop makes these accesses and ends with this result. -/
inductive Runs (turn : σ → Turn ε σ ρ) : σ → List ε → ρ → Prop
  | leave {s : σ} {r : ρ} (h : (turn s).next = .inr r) : Runs turn s (turn s).accesses r
  | again {s s' : σ} {accesses : List ε} {r : ρ} (h : (turn s).next = .inl s')
      (rest : Runs turn s' accesses r) : Runs turn s ((turn s).accesses ++ accesses) r

variable {turn : σ → Turn ε σ ρ}

theorem Runs.of_leave {s : σ} {accesses : List ε} {r : ρ} (h : turn s = ⟨accesses, .inr r⟩) :
    Runs turn s accesses r := by
  have hruns : Runs turn s (turn s).accesses r := .leave (by rw [h])
  rwa [h] at hruns

theorem Runs.of_again {s s' : σ} {first accesses : List ε} {r : ρ}
    (h : turn s = ⟨first, .inl s'⟩) (rest : Runs turn s' accesses r) :
    Runs turn s (first ++ accesses) r := by
  have hruns : Runs turn s ((turn s).accesses ++ accesses) r := .again (by rw [h]) rest
  rwa [h] at hruns

theorem Runs.unique {s : σ} {accesses₁ accesses₂ : List ε} {r₁ r₂ : ρ}
    (h₁ : Runs turn s accesses₁ r₁) (h₂ : Runs turn s accesses₂ r₂) :
    accesses₁ = accesses₂ ∧ r₁ = r₂ := by
  induction h₁ generalizing accesses₂ r₂ with
  | leave hleave =>
    cases h₂ with
    | leave h =>
      rw [hleave] at h
      exact ⟨rfl, Sum.inr.inj h⟩
    | again h rest =>
      rw [hleave] at h
      cases h
  | again hagain rest₁ ih =>
    cases h₂ with
    | leave h =>
      rw [hagain] at h
      cases h
    | again h rest₂ =>
      rw [hagain] at h
      cases h
      obtain ⟨rfl, rfl⟩ := ih rest₂
      exact ⟨rfl, rfl⟩

/-- A loop ends if every turn that goes on lowers a measure. -/
theorem exists_runs (measure : σ → ℕ)
    (hlower : ∀ s s', (turn s).next = .inl s' → measure s' < measure s) (s : σ) :
    ∃ accesses r, Runs turn s accesses r := by
  induction hm : measure s using Nat.strong_induction_on generalizing s with
  | _ m ih =>
    cases hnext : (turn s).next with
    | inl s' =>
      obtain ⟨accesses, r, hrest⟩ := ih (measure s') (hm ▸ hlower s s' hnext) s' rfl
      exact ⟨_, r, .again hnext hrest⟩
    | inr r => exact ⟨_, r, .leave hnext⟩

/-- From states with the invariant, a turn accesses only what is allowed, keeps the invariant when it
goes on, and leaves only with an admissible result. -/
structure Respects (turn : σ → Turn ε σ ρ) (inv : σ → Prop) (allowed : ε → Prop)
    (admissible : ρ → Prop) : Prop where
  accesses : ∀ s, inv s → ∀ e ∈ (turn s).accesses, allowed e
  again : ∀ s s', inv s → (turn s).next = .inl s' → inv s'
  leave : ∀ s r, inv s → (turn s).next = .inr r → admissible r

theorem Runs.respects {inv : σ → Prop} {allowed : ε → Prop} {admissible : ρ → Prop}
    (hturn : Respects turn inv allowed admissible) {s : σ} {accesses : List ε} {r : ρ}
    (h : Runs turn s accesses r) (hs : inv s) : (∀ e ∈ accesses, allowed e) ∧ admissible r := by
  induction h with
  | leave hleave => exact ⟨hturn.accesses _ hs, hturn.leave _ _ hs hleave⟩
  | again hagain rest ih =>
    obtain ⟨hrest, hr⟩ := ih (hturn.again _ _ hs hagain)
    refine ⟨fun e he => ?_, hr⟩
    rcases List.mem_append.mp he with he | he
    · exact hturn.accesses _ hs e he
    · exact hrest e he

end HashCompress.TracedLoop
