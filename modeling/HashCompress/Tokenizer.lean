import HashCompress.WordText

/-!
# The tokenizer

`tokenize_raw`, with the character classes of the C locale.
-/
namespace HashCompress.Tokenizer

open InputStream WordText

def isUpper (b : UInt8) : Bool := 65 ≤ b && b ≤ 90

def isLower (b : UInt8) : Bool := 97 ≤ b && b ≤ 122

def isAlnum (b : UInt8) : Bool := isDigit b || isUpper b || isLower b

def toLower (b : UInt8) : UInt8 := if isUpper b then b + 32 else b

/-- The loop over the characters, with the word that is being collected. -/
def tokenizeLoop : List UInt8 → List UInt8 → List (List UInt8)
  | [], current => if current = [] then [] else [current]
  | c :: text, current =>
    if isAlnum c || c == 39 then tokenizeLoop text (current ++ [toLower c])
    else
      (if current = [] then [] else [current]) ++ (if isSpace c then [] else [[c]]) ++
        tokenizeLoop text []

def tokenizeRaw (text : List UInt8) : List (List UInt8) := tokenizeLoop text []

/-- What a word is made of: lower-case letters, digits and apostrophes. -/
def isWordChar (c : UInt8) : Bool := isLower c || isDigit c || c == 39

/-- A word, or one character of another kind. -/
inductive IsNormal : List UInt8 → Prop
  | word {w : List UInt8} (ne_nil : w ≠ []) (chars : ∀ b ∈ w, isWordChar b = true) : IsNormal w
  | single {c : UInt8} (other : (isAlnum c || c == 39) = false) (solid : isSpace c = false) :
      IsNormal [c]

lemma isWordChar_iff (c : UInt8) :
    isWordChar c = true ↔ (97 ≤ c.toNat ∧ c.toNat ≤ 122) ∨ (48 ≤ c.toNat ∧ c.toNat ≤ 57) ∨
      c.toNat = 39 := by
  simp only [isWordChar, isLower, Bool.or_eq_true, Bool.and_eq_true, decide_eq_true_eq,
    UInt8.le_iff_toNat_le, isDigit_iff, beq_iff_eq, ← UInt8.toNat_inj, UInt8.reduceToNat, or_assoc]

lemma isUpper_iff (c : UInt8) : isUpper c = true ↔ 65 ≤ c.toNat ∧ c.toNat ≤ 90 := by
  simp only [isUpper, Bool.and_eq_true, decide_eq_true_eq, UInt8.le_iff_toNat_le,
    UInt8.reduceToNat]

/-- A letter of either case, a digit or an apostrophe. -/
lemma isAlnum_or_iff (c : UInt8) :
    (isAlnum c || c == 39) = true ↔ isUpper c = true ∨ isWordChar c = true := by
  unfold isAlnum isWordChar
  cases isDigit c <;> cases isUpper c <;> cases isLower c <;> simp

lemma isWordChar_toLower {c : UInt8} (hc : (isAlnum c || c == 39) = true) :
    isWordChar (toLower c) = true := by
  unfold toLower
  split_ifs with h
  · rw [isUpper_iff] at h
    rw [isWordChar_iff, UInt8.toNat_add, show (32 : UInt8).toNat = 32 from rfl]
    omega
  · exact ((isAlnum_or_iff c).mp hc).resolve_left h

lemma toLower_of_isWordChar {c : UInt8} (hc : isWordChar c = true) :
    (isAlnum c || c == 39) = true ∧ isSpace c = false ∧ toLower c = c := by
  refine ⟨(isAlnum_or_iff c).mpr (Or.inr hc), ?_, ?_⟩
  · rw [Bool.eq_false_iff, ne_eq, isSpace_iff]
    rw [isWordChar_iff] at hc
    omega
  · apply if_neg
    rw [isUpper_iff]
    rw [isWordChar_iff] at hc
    omega

lemma toLower_of_other {c : UInt8} (hc : (isAlnum c || c == 39) = false) : toLower c = c := by
  apply if_neg
  intro hupper
  have htrue := (isAlnum_or_iff c).mpr (Or.inl hupper)
  rw [hc] at htrue
  exact Bool.false_ne_true htrue

lemma tokenizeLoop_cons_word {c : UInt8} (hc : (isAlnum c || c == 39) = true)
    (text current : List UInt8) :
    tokenizeLoop (c :: text) current = tokenizeLoop text (current ++ [toLower c]) := by
  rw [tokenizeLoop, if_pos hc]

/-- Any other character ends the word that was being collected. -/
lemma tokenizeLoop_cons_other {c : UInt8} (hc : (isAlnum c || c == 39) = false)
    (text current : List UInt8) :
    tokenizeLoop (c :: text) current =
      tokenizeLoop [] current ++ ((if isSpace c then [] else [[c]]) ++ tokenizeLoop text []) := by
  conv_lhs => rw [tokenizeLoop, hc]
  exact List.append_assoc _ _ _

lemma tokenizeLoop_nil_of_ne {current : List UInt8} (h : current ≠ []) :
    tokenizeLoop [] current = [current] := if_neg h

lemma tokenizeLoop_nil_flatten (current : List UInt8) :
    (tokenizeLoop [] current).flatten = current := by
  unfold tokenizeLoop
  split_ifs with h
  · exact h.symm
  · exact List.flatten_singleton

lemma tokenizeLoop_isNormal {text current : List UInt8}
    (hcur : ∀ b ∈ current, isWordChar b = true) {w : List UInt8}
    (hw : w ∈ tokenizeLoop text current) : IsNormal w := by
  induction text generalizing current with
  | nil =>
    unfold tokenizeLoop at hw
    split_ifs at hw with hnil
    · exact absurd hw List.not_mem_nil
    · rw [List.mem_singleton.mp hw]
      exact .word hnil hcur
  | cons c text ih =>
    cases hc : (isAlnum c || c == 39) with
    | true =>
      rw [tokenizeLoop_cons_word hc] at hw
      refine ih ?_ hw
      intro b hb
      rcases List.mem_append.mp hb with hb | hb
      · exact hcur b hb
      · rw [List.mem_singleton.mp hb]
        exact isWordChar_toLower hc
    | false =>
      rw [tokenizeLoop_cons_other hc, List.mem_append, List.mem_append] at hw
      rcases hw with hw | hw | hw
      · unfold tokenizeLoop at hw
        split_ifs at hw with hnil
        · exact absurd hw List.not_mem_nil
        · rw [List.mem_singleton.mp hw]
          exact .word hnil hcur
      · split_ifs at hw with hspace
        · exact absurd hw List.not_mem_nil
        · rw [List.mem_singleton.mp hw]
          exact .single hc (by simpa using hspace)
      · exact ih (List.forall_mem_nil _) hw

lemma IsNormal.isToken {w : List UInt8} (h : IsNormal w) : IsToken w := by
  cases h with
  | word ne_nil chars => exact ⟨ne_nil, fun b hb => (toLower_of_isWordChar (chars b hb)).2.1⟩
  | single other solid => exact ⟨List.cons_ne_nil _ _, by simpa using solid⟩

/-- No token is empty or holds white space. -/
theorem tokenizeRaw_isToken {text w : List UInt8} (hw : w ∈ tokenizeRaw text) : IsToken w :=
  (tokenizeLoop_isNormal (by simp) hw).isToken

/-- Nothing but white space is lost. -/
lemma tokenizeLoop_flatten (text current : List UInt8) :
    (tokenizeLoop text current).flatten =
      current ++ (text.map toLower).filter (fun c => !isSpace c) := by
  induction text generalizing current with
  | nil => rw [tokenizeLoop_nil_flatten, List.map_nil, List.filter_nil, List.append_nil]
  | cons c text ih =>
    cases hc : (isAlnum c || c == 39) with
    | true =>
      rw [tokenizeLoop_cons_word hc, ih, List.map_cons,
        List.filter_cons_of_pos (by simp [toLower_of_isWordChar (isWordChar_toLower hc)]), List.append_assoc]
      rfl
    | false =>
      rw [tokenizeLoop_cons_other hc, List.flatten_append, tokenizeLoop_nil_flatten,
        List.flatten_append, ih, List.nil_append, List.map_cons, toLower_of_other hc,
        List.filter_cons]
      cases isSpace c <;> rfl

/-! ### Tokenizing the joined tokens -/

lemma tokenizeLoop_append_word {w : List UInt8} (hw : ∀ b ∈ w, isWordChar b = true)
    (text current : List UInt8) :
    tokenizeLoop (w ++ text) current = tokenizeLoop text (current ++ w) := by
  induction w generalizing current with
  | nil => rw [List.nil_append, List.append_nil]
  | cons c w ih =>
    obtain ⟨hword, -, hlower⟩ := toLower_of_isWordChar (hw c List.mem_cons_self)
    rw [List.cons_append, tokenizeLoop_cons_word hword, hlower,
      ih fun b hb => hw b (List.mem_cons_of_mem _ hb), List.append_assoc]
    rfl

lemma tokenizeLoop_blank (text current : List UInt8) :
    tokenizeLoop (32 :: text) current = tokenizeLoop [] current ++ tokenizeLoop text [] :=
  tokenizeLoop_cons_other (by decide) text current

lemma tokenizeLoop_isNormal_append {w : List UInt8} (h : IsNormal w) :
    tokenizeLoop w [] = [w] ∧
      ∀ text, tokenizeLoop (w ++ 32 :: text) [] = w :: tokenizeLoop text [] := by
  cases h with
  | word ne_nil chars =>
    have hend := tokenizeLoop_append_word chars [] []
    rw [List.append_nil, List.nil_append, tokenizeLoop_nil_of_ne ne_nil] at hend
    refine ⟨hend, fun text => ?_⟩
    rw [tokenizeLoop_append_word chars, List.nil_append, tokenizeLoop_blank,
      tokenizeLoop_nil_of_ne ne_nil]
    rfl
  | @single c other solid =>
    have hsingle : ∀ text, tokenizeLoop (c :: text) [] = [c] :: tokenizeLoop text [] := by
      intro text
      rw [tokenizeLoop_cons_other other, solid]
      rfl
    refine ⟨hsingle [], fun text => ?_⟩
    rw [List.singleton_append, hsingle, tokenizeLoop_blank]
    rfl

lemma tokenizeRaw_joinWords {words : List (List UInt8)} (h : ∀ w ∈ words, IsNormal w) :
    tokenizeRaw (joinWords words) = words := by
  induction words with
  | nil => rfl
  | cons w words ih =>
    obtain ⟨hlast, hmore⟩ := tokenizeLoop_isNormal_append (h w List.mem_cons_self)
    have hrest := ih fun v hv => h v (List.mem_cons_of_mem _ hv)
    cases words with
    | nil =>
      rw [joinWords, List.intercalate_singleton]
      exact hlast
    | cons v words =>
      unfold tokenizeRaw joinWords at hrest ⊢
      rw [List.intercalate_cons_cons, List.append_assoc, List.singleton_append, hmore, hrest]

/-- Every token is a word or one other character, the tokens put together are the lower-cased text
without its white space, and joined by single blanks they are tokenized to themselves. -/
theorem tokenizeRaw_normalForm (text : List UInt8) :
    (∀ w ∈ tokenizeRaw text, IsNormal w) ∧
      (tokenizeRaw text).flatten = (text.map toLower).filter (fun c => !isSpace c) ∧
      tokenizeRaw (joinWords (tokenizeRaw text)) = tokenizeRaw text := by
  have hnormal : ∀ w ∈ tokenizeRaw text, IsNormal w :=
    fun w hw => tokenizeLoop_isNormal (List.forall_mem_nil _) hw
  exact ⟨hnormal, tokenizeLoop_flatten text [], tokenizeRaw_joinWords hnormal⟩

end HashCompress.Tokenizer
