import HashCompress.PhraseSelection
import HashCompress.Tokenizer
import HashCompress.TokenCodec

/-!
# Segmenting a text into phrases

`process_with_phrases`, the expansion of its tokens, and when the expansion is the text again.
-/
namespace HashCompress.PhraseSegment

open WordText TallyMap KeyTrie CodeTables PhraseMining TokenCodec

/-- The variables of the matching loop: `last_match` with `match_length`, and `wildcard_word`. -/
structure MatchState where
  lastMatch : Option (NodeInfo × ℕ) := none
  wildcardWord : Word := []

/-- The matching loop at the tokens `start`, which has walked `j` of them down to `current`. -/
def matchLoop (start : List Word) : ℕ → ℕ → PhraseNode → List Word → MatchState → MatchState
  | 0, _, _, _, m => m
  | _ + 1, _, _, [], m => m
  | fuel + 1, j, current, token :: rest, m =>
    match current.child? token with
    | none => m
    | some node =>
      let m :=
        if node.info.isEnd then
          { lastMatch := some (node.info, j + 1)
            wildcardWord :=
              if node.info.hasWildcard then start.getD node.info.wildcardPos m.wildcardWord
              else m.wildcardWord }
        else m
      matchLoop start fuel (j + 1) node rest m

def matchPhrase (root : PhraseNode) (tokens : List Word) : MatchState :=
  matchLoop tokens 5 0 root tokens {}

/-- The tokens for a match: the phrase, and its wildcard word if the node has a wildcard. -/
def matchTokens (info : NodeInfo) (wildcardWord : Word) : List Token :=
  if info.hasWildcard then [.phrase info.phraseId, .wildcard wildcardWord info.phraseId]
  else [.phrase info.phraseId]

def processLoop (root : PhraseNode) : ℕ → List Word → List Token
  | 0, _ => []
  | _ + 1, [] => []
  | fuel + 1, token :: rest =>
    match (matchPhrase root (token :: rest)).lastMatch with
    | some (info, matchLength) =>
      matchTokens info (matchPhrase root (token :: rest)).wildcardWord ++
        processLoop root fuel ((token :: rest).drop matchLength)
    | none => .word token :: processLoop root fuel rest

/-- Every pass consumes a token, so there are at most as many passes as tokens. -/
def processWithPhrases (root : PhraseNode) (rawTokens : List Word) : List Token :=
  processLoop root rawTokens.length rawTokens

/-- What to make of a wildcard token that follows no wildcard phrase. -/
inductive Stray where
  | skip
  | reject
  deriving DecidableEq

/-- The words that a token stream stands for: a phrase gives the words of its entry, with the slot
filled by the wildcard token behind it. -/
def expand (stray : Stray) (mainDecode : List Word) (phraseDecode : List PhraseInfo) :
    List Token → Option (List Word)
  | [] => some []
  | .word w :: tokens => (expand stray mainDecode phraseDecode tokens).map (w :: ·)
  | .wildcard _ _ :: tokens =>
    match stray with
    | .skip => expand stray mainDecode phraseDecode tokens
    | .reject => none
  | .phrase phraseId :: tokens =>
    match phraseDecode[phraseId.toNat]? with
    | none => none
    | some p =>
      if p.hasWildcard then
        match tokens with
        | .wildcard w _ :: tokens => do
          let words ← phraseWords mainDecode (some (p.wildcardPos, w)) p
          (expand stray mainDecode phraseDecode tokens).map (words ++ ·)
        | _ => none
      else do
        let words ← phraseWords mainDecode none p
        (expand stray mainDecode phraseDecode tokens).map (words ++ ·)

/-! ### The longest match -/

section Longest

variable (isEnd : List Word → Prop)

/-- The prefix of length `n` is the longest of at most `limit` tokens that ends a phrase. -/
structure Longest (limit : ℕ) (tokens : List Word) (n : ℕ) : Prop where
  pos : 0 < n
  le_limit : n ≤ limit
  le_length : n ≤ tokens.length
  ends : isEnd (tokens.take n)
  max : ∀ k, n < k → k ≤ limit → k ≤ tokens.length → ¬ isEnd (tokens.take k)

/-- No prefix of at most `limit` tokens ends a phrase. -/
def NoMatch (limit : ℕ) (tokens : List Word) : Prop :=
  ∀ k, 0 < k → k ≤ limit → k ≤ tokens.length → ¬ isEnd (tokens.take k)

variable {isEnd} {below : List Word → Prop} {token : Word} {limit : ℕ} {rest : List Word}

lemma Longest.cons (h : ∀ p, isEnd (token :: p) ↔ below p) {n : ℕ} (hl : Longest below limit rest n) :
    Longest isEnd (limit + 1) (token :: rest) (n + 1) := by
  refine ⟨by omega, by have := hl.le_limit; omega, by simpa using hl.le_length, ?_, ?_⟩
  · rw [List.take_succ_cons, h]
    exact hl.ends
  · intro k hk hlimit hlen
    obtain ⟨k, rfl⟩ : ∃ k', k = k' + 1 := ⟨k - 1, by omega⟩
    rw [List.take_succ_cons, h]
    exact hl.max k (by omega) (by omega) (by simpa using hlen)

lemma NoMatch.longest_one (h : ∀ p, isEnd (token :: p) ↔ below p) (hend : below [])
    (hno : NoMatch below limit rest) : Longest isEnd (limit + 1) (token :: rest) 1 := by
  refine ⟨by omega, by omega, by simp, ?_, ?_⟩
  · rw [List.take_succ_cons, List.take_zero, h]
    exact hend
  · intro k hk hlimit hlen
    obtain ⟨k, rfl⟩ : ∃ k', k = k' + 1 := ⟨k - 1, by omega⟩
    rw [List.take_succ_cons, h]
    exact hno k (by omega) (by omega) (by simpa using hlen)

lemma NoMatch.cons (h : ∀ p, isEnd (token :: p) ↔ below p) (hend : ¬ below [])
    (hno : NoMatch below limit rest) : NoMatch isEnd (limit + 1) (token :: rest) := by
  intro k hk hlimit hlen
  obtain ⟨k, rfl⟩ : ∃ k', k = k' + 1 := ⟨k - 1, by omega⟩
  rw [List.take_succ_cons, h]
  cases k with
  | zero => exact hend
  | succ k => exact hno (k + 1) (by omega) (by omega) (by simpa using hlen)

lemma Longest.length_rest {tokens : List Word} {n fuel : ℕ} (hn : Longest isEnd limit tokens n)
    (hfuel : tokens.length ≤ fuel + 1) : (tokens.drop n).length ≤ fuel := by
  have hpos := hn.pos
  rw [List.length_drop]
  omega

lemma Longest.unique {tokens : List Word} {n k : ℕ} (hn : Longest isEnd limit tokens n)
    (hk : Longest isEnd limit tokens k) : n = k := by
  rcases Nat.lt_trichotomy n k with hlt | heq | hlt
  · exact absurd hk.ends (hn.max k hlt hk.le_limit hk.le_length)
  · exact heq
  · exact absurd hn.ends (hk.max n hlt hn.le_limit hn.le_length)

lemma NoMatch.not_longest {tokens : List Word} {n : ℕ} (hno : NoMatch isEnd limit tokens) :
    ¬ Longest isEnd limit tokens n :=
  fun h => hno n h.pos h.le_limit h.le_length h.ends

variable (isEnd)

/-- The greedy segmentation of the tokens, in which every phrase taken is `ok`. -/
inductive Segmented (ok : List Word → Prop) : List Word → Prop where
  | nil : Segmented ok []
  | word {token : Word} {rest : List Word} (hno : NoMatch isEnd 5 (token :: rest))
      (h : Segmented ok rest) : Segmented ok (token :: rest)
  | phrase {tokens : List Word} {n : ℕ} (hn : Longest isEnd 5 tokens n)
      (hok : ok (tokens.take n)) (h : Segmented ok (tokens.drop n)) : Segmented ok tokens

variable {isEnd}

lemma segmented_word_iff {ok : List Word → Prop} (hno : NoMatch isEnd 5 (token :: rest)) :
    Segmented isEnd ok (token :: rest) ↔ Segmented isEnd ok rest := by
  refine ⟨fun h => ?_, fun h => .word hno h⟩
  cases h with
  | word _ h => exact h
  | phrase hn _ _ => exact absurd hn hno.not_longest

lemma segmented_phrase_iff {ok : List Word → Prop} {tokens : List Word} {n : ℕ}
    (hn : Longest isEnd 5 tokens n) :
    Segmented isEnd ok tokens ↔ ok (tokens.take n) ∧ Segmented isEnd ok (tokens.drop n) := by
  refine ⟨fun h => ?_, fun h => .phrase hn h.1 h.2⟩
  cases h with
  | nil =>
    have hle := hn.le_length
    have hpos := hn.pos
    simp at hle
    omega
  | word hno _ => exact absurd hn hno.not_longest
  | phrase hk hok h =>
    obtain rfl := hn.unique hk
    exact ⟨hok, h⟩

end Longest

def EndsAt (node : PhraseNode) (p : List Word) : Prop := (node.infoAt {} p).isEnd = true

lemma endsAt_cons (node : PhraseNode) (token : Word) (p : List Word) :
    EndsAt node (token :: p) ↔
      EndsAt ((node.child? token).getD (Trie.leaf {})) p := by
  rw [EndsAt, EndsAt, Trie.infoAt_cons]

/-- The loop ends with the longest match below the current node, or keeps the match it had. -/
lemma matchLoop_spec (start : List Word) {fuel j : ℕ} {current : PhraseNode} {rest : List Word}
    {m : MatchState} :
    (∃ n, Longest (EndsAt current) fuel rest n ∧
      (matchLoop start fuel j current rest m).lastMatch =
        some (current.infoAt {} (rest.take n), j + n)) ∨
    (NoMatch (EndsAt current) fuel rest ∧
      (matchLoop start fuel j current rest m).lastMatch = m.lastMatch) := by
  induction fuel generalizing j current rest m with
  | zero => exact Or.inr ⟨fun k hk hle => by omega, rfl⟩
  | succ fuel ih =>
    cases rest with
    | nil => exact Or.inr ⟨fun k hk _ hle => by simp at hle; omega, rfl⟩
    | cons token rest =>
      cases hchild : current.child? token with
      | none =>
        refine Or.inr ⟨fun k hk _ _ => ?_, by simp [matchLoop, hchild]⟩
        obtain ⟨k, rfl⟩ : ∃ k', k = k' + 1 := ⟨k - 1, by omega⟩
        rw [List.take_succ_cons, endsAt_cons, hchild]
        simp [EndsAt]
      | some node =>
        have hinfo : ∀ p, current.infoAt {} (token :: p) = node.infoAt {} p := by
          intro p
          rw [Trie.infoAt_cons, hchild]
          rfl
        have hends : ∀ p, EndsAt current (token :: p) ↔ EndsAt node p := by
          intro p
          rw [EndsAt, EndsAt, hinfo]
        have hbelow : EndsAt node [] ↔ node.info.isEnd = true := Iff.rfl
        simp only [matchLoop, hchild]
        cases hend : node.info.isEnd with
        | true =>
          simp only [if_true]
          rcases @ih (j + 1) node rest _ with ⟨n, hlong, heq⟩ | ⟨hno, heq⟩
          · refine Or.inl ⟨n + 1, hlong.cons hends, ?_⟩
            rw [heq, List.take_succ_cons, hinfo]
            simp [Nat.add_comm, Nat.add_left_comm]
          · refine Or.inl ⟨1, hno.longest_one hends (hbelow.mpr hend), ?_⟩
            rw [heq, List.take_succ_cons, List.take_zero, hinfo]
            rfl
        | false =>
          simp only [Bool.false_eq_true, if_false]
          rcases @ih (j + 1) node rest m with ⟨n, hlong, heq⟩ | ⟨hno, heq⟩
          · refine Or.inl ⟨n + 1, hlong.cons hends, ?_⟩
            rw [heq, List.take_succ_cons, hinfo]
            simp [Nat.add_comm, Nat.add_left_comm]
          · exact Or.inr ⟨hno.cons hends (by rw [hbelow, hend]; simp), heq⟩

lemma matchPhrase_spec (root : PhraseNode) (tokens : List Word) :
    (∃ n, Longest (EndsAt root) 5 tokens n ∧
      (matchPhrase root tokens).lastMatch = some (root.infoAt {} (tokens.take n), n)) ∨
    (NoMatch (EndsAt root) 5 tokens ∧ (matchPhrase root tokens).lastMatch = none) := by
  simpa [matchPhrase] using @matchLoop_spec tokens 5 0 root tokens {}

/-- Where the tokens come from: a word from the text, a phrase from a node that ends one. -/
lemma processLoop_tokens {root : PhraseNode} {fuel : ℕ} {tokens : List Word} {token : Token}
    (ht : token ∈ processLoop root fuel tokens) :
    (∀ w, token = .word w → w ∈ tokens) ∧
      ∀ phraseId, token = .phrase phraseId →
        ∃ p, EndsAt root p ∧ (root.infoAt {} p).phraseId = phraseId := by
  induction fuel generalizing tokens with
  | zero => simp [processLoop] at ht
  | succ fuel ih =>
    cases tokens with
    | nil => simp [processLoop] at ht
    | cons first rest =>
      unfold processLoop at ht
      rcases matchPhrase_spec root (first :: rest) with ⟨n, hn, hmatch⟩ | ⟨-, hmatch⟩
      · rw [hmatch] at ht
        rcases List.mem_append.mp ht with ht | ht
        · refine ⟨?_, ?_⟩
          · rintro w rfl
            unfold matchTokens at ht
            split at ht <;> simp at ht
          · rintro phraseId rfl
            refine ⟨_, hn.ends, ?_⟩
            unfold matchTokens at ht
            split at ht <;> simpa [eq_comm] using ht
        · obtain ⟨hword, hphrase⟩ := ih ht
          exact ⟨fun w hw => List.mem_of_mem_drop (hword w hw), hphrase⟩
      · rw [hmatch] at ht
        rcases List.mem_cons.mp ht with rfl | ht
        · exact ⟨fun w hw => by cases hw; exact List.mem_cons_self, fun phraseId hw => by cases hw⟩
        · obtain ⟨hword, hphrase⟩ := ih ht
          exact ⟨fun w hw => List.mem_cons_of_mem _ (hword w hw), hphrase⟩

/-- A word of the text that is on no path of the trie is emitted as a word. -/
lemma word_mem_processLoop {root : PhraseNode} {known : List Word}
    (hknown : ∀ p, EndsAt root p → ∀ w ∈ p, w ∈ known) {fuel : ℕ} {tokens : List Word}
    (hfuel : tokens.length ≤ fuel) {w : Word} (hw : w ∈ tokens) (hnew : w ∉ known) :
    Token.word w ∈ processLoop root fuel tokens := by
  induction fuel generalizing tokens with
  | zero =>
    obtain rfl : tokens = [] := List.eq_nil_of_length_eq_zero (by omega)
    simp at hw
  | succ fuel ih =>
    cases tokens with
    | nil => simp at hw
    | cons first rest =>
      unfold processLoop
      rcases matchPhrase_spec root (first :: rest) with ⟨n, hn, hmatch⟩ | ⟨-, hmatch⟩
      · rw [hmatch]
        refine List.mem_append_right _ (ih (hn.length_rest hfuel) ?_)
        rw [← List.take_append_drop n (first :: rest)] at hw
        rcases List.mem_append.mp hw with hw | hw
        · exact absurd (hknown _ hn.ends w hw) hnew
        · exact hw
      · rw [hmatch]
        rcases List.mem_cons.mp hw with rfl | hw
        · exact List.mem_cons_self
        · exact List.mem_cons_of_mem _ (ih (by simpa using hfuel) hw)

/-! ### Expanding the segments -/

lemma expandCodes_of_codes {decode words : List Word} {codes : List UInt32} (i : ℕ)
    (h : codes.map (fun code => decode[code.toNat]?) = words.map some) :
    expandCodes decode none i codes = (words, none) := by
  induction codes generalizing words i with
  | nil =>
    cases words with
    | nil => rfl
    | cons w words => simp at h
  | cons code codes ih =>
    cases words with
    | nil => simp at h
    | cons w words =>
      simp only [List.map_cons, List.cons.injEq] at h
      simp only [expandCodes, h.1, ih (i + 1) h.2]

/-- A trie with the entries of its phrases, where `starred` paths carry a wildcard flag and
`registered` paths lead to an entry without wildcard. -/
structure PhraseTable (starred registered : List Word → Prop) (decode : List Word)
    (phrases : List PhraseInfo) (root : PhraseNode) : Prop where
  ends : ∀ p, EndsAt root p ↔ starred p ∨ registered p
  wildcard : ∀ p, (root.infoAt {} p).hasWildcard = true ↔ starred p
  plain : ∀ p, registered p → ∃ e, phrases[(root.infoAt {} p).phraseId.toNat]? = some e ∧
    e.hasWildcard = false ∧ e.wordCodes.map (fun code => decode[code.toNat]?) = p.map some
  longer : ∀ p, starred p → ¬ registered p → ∃ e,
    phrases[(root.infoAt {} p).phraseId.toNat]? = some e ∧ e.hasWildcard = true ∧
      p.length < e.wordCodes.length

def Faithful (stray : Stray) (starred registered : List Word → Prop) (p : List Word) : Prop :=
  registered p ∧ (stray = .skip ∨ ¬ starred p)

section Expand

variable {starred registered : List Word → Prop} {decode : List Word} {phrases : List PhraseInfo}
  {root : PhraseNode} (h : PhraseTable starred registered decode phrases root) (stray : Stray)
include h

lemma expand_faithful {p : List Word} (hp : Faithful stray starred registered p) (w : Word)
    (tokens : List Token) :
    expand stray decode phrases (matchTokens (root.infoAt {} p) w ++ tokens) =
      (expand stray decode phrases tokens).map (p ++ ·) := by
  obtain ⟨hreg, hstray⟩ := hp
  obtain ⟨e, he, hplain, hcodes⟩ := h.plain p hreg
  have hwords : phraseWords decode none e = some p := by
    rw [phraseWords, expandCodes_of_codes 0 hcodes]
  unfold matchTokens
  cases hw : (root.infoAt {} p).hasWildcard with
  | false => simp [expand, he, hplain, hwords]
  | true =>
    obtain rfl : stray = .skip := hstray.resolve_right fun hno => hno ((h.wildcard p).mp hw)
    simp [expand, he, hplain, hwords]

lemma expand_unfaithful {p : List Word} (hend : EndsAt root p)
    (hp : ¬ Faithful stray starred registered p) {w : Word} {tokens : List Token} {out : List Word}
    (hout : expand stray decode phrases (matchTokens (root.infoAt {} p) w ++ tokens) = some out) :
    ∃ words tail, p.length < words.length ∧ out = words ++ tail ∧
      expand stray decode phrases tokens = some tail := by
  by_cases hreg : registered p
  · have hbad : stray ≠ .skip ∧ starred p := by
      constructor
      · exact fun heq => hp ⟨hreg, Or.inl heq⟩
      · by_contra hno
        exact hp ⟨hreg, Or.inr hno⟩
    obtain ⟨e, he, hplain, hcodes⟩ := h.plain p hreg
    have hwords : phraseWords decode none e = some p := by
      rw [phraseWords, expandCodes_of_codes 0 hcodes]
    have hreject : stray = .reject := by
      cases stray with
      | skip => exact absurd rfl hbad.1
      | reject => rfl
    subst hreject
    simp [matchTokens, (h.wildcard p).mpr hbad.2, expand, he, hplain, hwords] at hout
  · have hstar : starred p := ((h.ends p).mp hend).resolve_right hreg
    obtain ⟨e, he, hwild, hlen⟩ := h.longer p hstar hreg
    simp only [matchTokens, (h.wildcard p).mpr hstar, if_true, List.cons_append, List.nil_append,
      expand, he, hwild, Option.bind_eq_bind, Option.bind_eq_some_iff, Option.map_eq_some_iff] at hout
    obtain ⟨words, hwords, tail, htail, rfl⟩ := hout
    exact ⟨words, tail, by rw [phraseWords_length hwords]; exact hlen, rfl, htail⟩

/-- No segment expands to fewer words than it was taken for. -/
lemma length_le_of_expand {fuel : ℕ} {tokens out : List Word} (hfuel : tokens.length ≤ fuel)
    (hout : expand stray decode phrases (processLoop root fuel tokens) = some out) :
    tokens.length ≤ out.length := by
  induction fuel generalizing tokens out with
  | zero => omega
  | succ fuel ih =>
    cases tokens with
    | nil => simp
    | cons token rest =>
      unfold processLoop at hout
      rcases matchPhrase_spec root (token :: rest) with ⟨n, hn, hmatch⟩ | ⟨hno, hmatch⟩
      · have hle := hn.le_length
        have hrest := hn.length_rest hfuel
        have htake : ((token :: rest).take n).length = n := List.length_take_of_le hle
        rw [hmatch] at hout
        dsimp only at hout
        by_cases hgood : Faithful stray starred registered ((token :: rest).take n)
        · rw [expand_faithful h stray hgood, Option.map_eq_some_iff] at hout
          obtain ⟨tail, htail, rfl⟩ := hout
          have hstep := ih hrest htail
          rw [List.length_drop] at hstep
          rw [List.length_append, htake]
          omega
        · obtain ⟨words, tail, hlen, rfl, htail⟩ := expand_unfaithful h stray hn.ends hgood hout
          have hstep := ih hrest htail
          rw [List.length_drop] at hstep
          rw [List.length_append]
          omega
      · rw [hmatch] at hout
        simp only [expand, Option.map_eq_some_iff] at hout
        obtain ⟨tail, htail, rfl⟩ := hout
        have hstep := ih (by simpa using hfuel) htail
        simpa using hstep

/-- The token stream expands to the tokens exactly when every phrase taken is faithful. -/
theorem expand_processLoop_iff {fuel : ℕ} {tokens : List Word} (hfuel : tokens.length ≤ fuel) :
    expand stray decode phrases (processLoop root fuel tokens) = some tokens ↔
      Segmented (EndsAt root) (Faithful stray starred registered) tokens := by
  induction fuel generalizing tokens with
  | zero =>
    obtain rfl : tokens = [] := List.eq_nil_of_length_eq_zero (by omega)
    exact ⟨fun _ => .nil, fun _ => rfl⟩
  | succ fuel ih =>
    cases tokens with
    | nil => exact ⟨fun _ => .nil, fun _ => rfl⟩
    | cons token rest =>
      unfold processLoop
      rcases matchPhrase_spec root (token :: rest) with ⟨n, hn, hmatch⟩ | ⟨hno, hmatch⟩
      · have hle := hn.le_length
        have hrest := hn.length_rest hfuel
        have htake : ((token :: rest).take n).length = n := List.length_take_of_le hle
        rw [hmatch, segmented_phrase_iff hn]
        dsimp only
        by_cases hgood : Faithful stray starred registered ((token :: rest).take n)
        · rw [expand_faithful h stray hgood, and_iff_right hgood, ← ih hrest,
            Option.map_eq_some_iff]
          constructor
          · rintro ⟨tail, htail, heq⟩
            rw [htail, Option.some.injEq]
            exact List.append_cancel_left (heq.trans (List.take_append_drop n _).symm)
          · intro htail
            exact ⟨_, htail, List.take_append_drop n _⟩
        · refine ⟨fun hout => ?_, fun hseg => absurd hseg.1 hgood⟩
          obtain ⟨words, tail, hlen, heq, htail⟩ := expand_unfaithful h stray hn.ends hgood hout
          have hshort := length_le_of_expand h stray hrest htail
          have htotal := congrArg List.length heq
          rw [List.length_append] at htotal
          rw [List.length_drop] at hshort
          omega
      · rw [hmatch, segmented_word_iff hno, ← ih (by simpa using hfuel)]
        simp [expand]

end Expand

/-! ### The mined phrases -/

def Fits (main : MainDict) (tokens : List Word) : Prop :=
  phraseCount tokens ≤ 2 ^ 32 ∧
    main.decode.length + (phraseWordSet tokens \ main.decode.toFinset).card ≤ 2 ^ 32

section Mined

variable {tokens : List Word} (htok : ∀ w ∈ tokens, IsToken w) {main : MainDict} (h : main.Coherent)
  (o : Orders)

lemma wild_wildcardAdditions {m : Addition} (hm : m ∈ wildcardAdditions o tokens) :
    m.wild = true := by
  obtain ⟨j, -, rfl⟩ := List.mem_map.mp hm
  rfl

lemma wild_regularAdditions {m : Addition} (hm : m ∈ regularAdditions o tokens) :
    m.wild = false := by
  obtain ⟨e, -, rfl⟩ := List.mem_map.mp hm
  rfl

include htok h

lemma endsAt_minePhrases (p : List Word) :
    EndsAt (minePhrases o tokens main).phraseTrieRoot p ↔
      Starred tokens p ∨ Registered tokens p := by
  rw [EndsAt, (mined_minePhrases htok h o).isEnd, ← exists_wildcardAddition htok o,
    ← exists_regularAddition htok o]
  simp [or_and_right, exists_or]

/-- The wildcard flag of a node stays when the regular pass comes to it. -/
lemma hasWildcard_minePhrases (p : List Word) :
    ((minePhrases o tokens main).phraseTrieRoot.infoAt {} p).hasWildcard = true ↔
      Starred tokens p := by
  rw [(mined_minePhrases htok h o).hasWildcard, ← exists_wildcardAddition htok o]
  constructor
  · rintro ⟨m, hm, hpath, hw⟩
    rcases List.mem_append.mp hm with hm | hm
    · exact ⟨m, hm, hpath⟩
    · rw [wild_regularAdditions o hm] at hw
      cases hw
  · rintro ⟨m, hm, hpath⟩
    exact ⟨m, List.mem_append_left _ hm, hpath, wild_wildcardAdditions o hm⟩

lemma phraseTable_minePhrases (hfits : Fits main tokens) :
    PhraseTable (Starred tokens) (Registered tokens) (minePhrases o tokens main).main.decode
      (minePhrases o tokens main).phraseDecode (minePhrases o tokens main).phraseTrieRoot := by
  have hmined := mined_minePhrases htok h o
  obtain ⟨hcount, hsize, -⟩ := minePhrases_sizes htok o h
  have hentry := hmined.entry (hsize.trans_le hfits.2) (hcount.trans_le hfits.1)
  refine ⟨endsAt_minePhrases htok h o, hasWildcard_minePhrases htok h o, fun p hp => ?_,
    fun p hs hp => ?_⟩
  · -- The regular pass runs last, so its entry is the one the node keeps.
    obtain ⟨m, hm⟩ := Option.isSome_iff_exists.mp
      (lastAt_isSome.mpr ((exists_regularAddition htok o).mpr hp))
    obtain ⟨hmem, rfl⟩ := mem_of_lastAt hm
    obtain ⟨e, he, hw, hcodes⟩ := hentry m.path m (by rw [lastAt_append, hm, Option.some_or])
    rw [wild_regularAdditions o hmem] at hw hcodes
    exact ⟨e, he, hw, hcodes⟩
  · have hnone : lastAt p (regularAdditions o tokens) = none := by
      rw [← Option.not_isSome_iff_eq_none, lastAt_isSome, exists_regularAddition htok o]
      exact hp
    obtain ⟨m, hm⟩ := Option.isSome_iff_exists.mp
      (lastAt_isSome.mpr ((exists_wildcardAddition htok o).mpr hs))
    obtain ⟨hmem, rfl⟩ := mem_of_lastAt hm
    obtain ⟨e, he, hw, hlen⟩ := hentry m.path m (by rw [lastAt_append, hnone, hm, Option.none_or])
    rw [wild_wildcardAdditions o hmem] at hw hlen
    exact ⟨e, he, hw, hlen⟩

end Mined

/-- Mining the phrases of the tokens and expanding the segmented tokens gives the tokens again. -/
def SegmentsFaithfully (stray : Stray) (o : Orders) (main : MainDict) (tokens : List Word) : Prop :=
  expand stray (minePhrases o tokens main).main.decode (minePhrases o tokens main).phraseDecode
    (processWithPhrases (minePhrases o tokens main).phraseTrieRoot tokens) = some tokens

/-- Every phrase that the longest-match segmentation takes is an n-gram of the text, and is not
what a frequent wildcard pattern leaves when its slot is dropped. -/
def TakesNgrams (stray : Stray) (tokens : List Word) : Prop :=
  Segmented (fun p => Starred tokens p ∨ Registered tokens p)
    (Faithful stray (Starred tokens) (Registered tokens)) tokens

lemma segmentsFaithfully_iff (stray : Stray) (o : Orders) {main : MainDict} (h : main.Coherent)
    {tokens : List Word} (htok : ∀ w ∈ tokens, IsToken w) (hfits : Fits main tokens) :
    SegmentsFaithfully stray o main tokens ↔ TakesNgrams stray tokens := by
  have htable := phraseTable_minePhrases htok h o hfits
  have hends : EndsAt (minePhrases o tokens main).phraseTrieRoot =
      fun p => Starred tokens p ∨ Registered tokens p := funext fun p => propext (htable.ends p)
  rw [SegmentsFaithfully, processWithPhrases, expand_processLoop_iff htable stray le_rfl, hends]
  rfl

/-- For every text, every order of traversal and every dictionary: the segmentation is faithful if
the numbers of words and phrases fit 32 bits and only n-grams are taken, and within these numbers
only then. -/
theorem segmentation_faithful_iff (text : List UInt8) (o : Orders) (stray : Stray) {main : MainDict}
    (h : main.Coherent) :
    (Fits main (Tokenizer.tokenizeRaw text) ∧ TakesNgrams stray (Tokenizer.tokenizeRaw text) →
      SegmentsFaithfully stray o main (Tokenizer.tokenizeRaw text)) ∧
    (Fits main (Tokenizer.tokenizeRaw text) →
      SegmentsFaithfully stray o main (Tokenizer.tokenizeRaw text) →
        TakesNgrams stray (Tokenizer.tokenizeRaw text)) := by
  have htok : ∀ w ∈ Tokenizer.tokenizeRaw text, IsToken w :=
    fun w hw => Tokenizer.tokenizeRaw_isToken hw
  refine ⟨fun hcond => ?_, fun hfits hseg => ?_⟩
  · exact (segmentsFaithfully_iff stray o h htok hcond.1).mpr hcond.2
  · exact (segmentsFaithfully_iff stray o h htok hfits).mp hseg

def pairText : List UInt8 := [97, 32, 98]

theorem segmentation_faithful_pair :
    SegmentsFaithfully .reject .same ⟨∅, []⟩ (Tokenizer.tokenizeRaw pairText) := by
  refine (segmentation_faithful_iff pairText .same .reject coherent_empty).1 ⟨?_, ?_⟩
  · unfold Fits
    decide +kernel
  · have htokens : Tokenizer.tokenizeRaw pairText = [[97], [98]] := by decide
    rw [htokens]
    refine .phrase (n := 2) ⟨by decide, by decide, by decide, Or.inr (by decide +kernel), ?_⟩
      ⟨by decide +kernel, Or.inr (by decide +kernel)⟩ .nil
    intro k hk _ hle
    simp at hle
    omega

/-- The text `a a a a a a`: after a phrase of five words the last one is taken for a wildcard
phrase of two. -/
def sixText : List UInt8 := [97, 32, 97, 32, 97, 32, 97, 32, 97, 32, 97]

theorem not_segmentsFaithfully_six :
    ¬ SegmentsFaithfully .skip .same ⟨∅, []⟩ (Tokenizer.tokenizeRaw sixText) ∧
      ¬ SegmentsFaithfully .reject .same ⟨∅, []⟩ (Tokenizer.tokenizeRaw sixText) := by
  unfold SegmentsFaithfully
  constructor <;> decide +kernel

end HashCompress.PhraseSegment
