import HashCompress.CodeOrder

/-!
# The command line

`main` of `Compression/main.cpp` as a process on a set of files. Every process works with a fresh
object; what it leaves to the next one is in the files. The dictionaries always go to `eng.dict`.
-/
namespace HashCompress.CommandRuns

open WordText TallyMap CodeTables TokenCodec DictionaryFile TokenLoop InputStream PhraseMining Tokenizer
open Compressor

abbrev Name := List UInt8

/-- The files that can be opened for reading, and the names that can be opened for writing. A file
that a process has written can be read. -/
structure Disk where
  content : Name → Option (List UInt8)
  writable : Name → Bool

def Disk.write (d : Disk) (name : Name) : Option (List UInt8) → Disk
  | none => d
  | some bytes => { d with content := Function.update d.content name (some bytes) }

def engDict : Name := [101, 110, 103, 46, 100, 105, 99, 116]

/-- The arguments behind the program name, and what the language and the machine leave open. -/
structure Process where
  args : List Name
  ch : Choices
  u : Uninit
  fuel : ℕ

/-- The exit status and the files afterwards. `none` if the process has not ended, or has indexed a
vector out of range, or has made a string of the null pointer behind the last argument. -/
def compressorMain (p : Process) (d : Disk) : Option (ℕ × Disk) :=
  match p.args with
  | [_, _, _] => none
  | mode :: dictFile :: inputFile :: outputFile :: _ =>
    if mode = [99] then
      let run := compress p.ch ⟨d.content dictFile, d.content inputFile, d.writable engDict,
        d.writable outputFile⟩ {}
      let d := (d.write engDict run.engDict).write outputFile run.compressed
      match run.status with
      | .success => some (0, d)
      | .failed _ => some (1, d)
      | .undefinedIndex => none
      | .diverges => none
    else if mode = [100] then
      (decompress p.u p.fuel ⟨d.content dictFile, d.content inputFile, d.writable outputFile⟩ {}).map
        fun run => (if run.error = none then 0 else 1, d.write outputFile run.output)
    else some (1, d)
  | _ => some (1, d)

/-- The exit statuses of processes that run one after the other, and the files they leave. -/
def session : List Process → Disk → Option (List ℕ × Disk)
  | [], d => some ([], d)
  | p :: ps, d => do
    let (code, d) ← compressorMain p d
    let (codes, d) ← session ps d
    some (code :: codes, d)

/-- A process that compresses takes `eng.dict` as its word list, and no process has it as its output
file. -/
def Process.FeedsBack (p : Process) : Prop :=
  ∀ mode dictFile inputFile outputFile rest,
    p.args = mode :: dictFile :: inputFile :: outputFile :: rest →
      (mode = [99] → dictFile = engDict) ∧ outputFile ≠ engDict

def words (d : Disk) : List Word := loadDictionaryWords (d.content engDict)

/-! ### A dictionary file as a word list -/

lemma loadDictionaryWords_line_append {line : List UInt8} (hne : line ≠ []) (hline : (10 : UInt8) ∉ line)
    (rest : List UInt8) :
    loadDictionaryWords (some (line ++ 10 :: rest)) =
      line.map toLower :: loadDictionaryWords (some rest) := by
  simp [loadDictionaryWords, List.splitOn_append_cons_self_of_not_mem hline, hne]

lemma loadDictionaryWords_lines {lines : List (List UInt8)}
    (h : ∀ line ∈ lines, line ≠ [] ∧ (10 : UInt8) ∉ line) (rest : List UInt8) :
    loadDictionaryWords (some (lines.flatMap (fun line => line ++ [10]) ++ rest)) =
      lines.map (fun line => line.map toLower) ++ loadDictionaryWords (some rest) := by
  induction lines with
  | nil => rfl
  | cons line lines ih =>
    obtain ⟨hne, hline⟩ := h line List.mem_cons_self
    have hrest := ih fun l hl => h l (List.mem_cons_of_mem _ hl)
    rw [List.flatMap_cons, List.append_assoc, List.append_assoc, List.singleton_append,
      loadDictionaryWords_line_append hne hline, hrest]
    rfl

/-- The line with the two counts, the words and the phrase lines all become words. -/
lemma loadDictionaryWords_written {main : List Word} (phrases : List PhraseInfo)
    (h : ∀ w ∈ main, w ≠ [] ∧ (10 : UInt8) ∉ w) :
    loadDictionaryWords (some (writeDictionaries main phrases)) =
      ((decimal main.length ++ [32] ++ decimal phrases.length) :: (main ++ phrases.map phraseLine)).map
        (fun line => line.map toLower) := by
  have hlines : ∀ line ∈ (decimal main.length ++ [32] ++ decimal phrases.length) ::
      (main ++ phrases.map phraseLine), line ≠ [] ∧ (10 : UInt8) ∉ line := by
    intro line hline
    rcases List.mem_cons.mp hline with rfl | hline
    · refine ⟨by simp, fun hmem => ?_⟩
      rcases List.mem_append.mp hmem with hmem | hmem
      · rcases List.mem_append.mp hmem with hmem | hmem
        · exact absurd (decimal_isDigit hmem) (by decide)
        · exact absurd hmem (by decide)
      · exact absurd (decimal_isDigit hmem) (by decide)
    · rcases List.mem_append.mp hline with hline | hline
      · exact h line hline
      · obtain ⟨phrase, -, rfl⟩ := List.mem_map.mp hline
        exact ⟨phraseLine_ne_nil phrase, phraseLine_no_line_end phrase⟩
  have hload := loadDictionaryWords_lines hlines []
  have hempty : loadDictionaryWords (some []) = [] := rfl
  rw [hempty, List.append_nil] at hload
  rw [← List.append_nil (List.map _ _), ← hload, writeDictionaries]
  simp [List.flatMap_map]

lemma toLower_toLower (b : UInt8) : toLower (toLower b) = toLower b := by
  revert b
  decide +kernel

lemma loadDictionaryWords_lower {dictionary : Option (List UInt8)} {w : Word}
    (hw : w ∈ loadDictionaryWords dictionary) : w.map toLower = w := by
  cases dictionary with
  | none => simp [loadDictionaryWords] at hw
  | some content =>
    obtain ⟨line, -, rfl⟩ := List.mem_map.mp hw
    simp [toLower_toLower]

/-! ### What a process does to `eng.dict` -/

lemma writeFiles_engDict {files : CompressFiles} {tokens : List Token} {c : TwoTierTextCompressor}
    {text : List UInt8} (h : (writeFiles files tokens c).engDict = some text) :
    text = writeDictionaries c.mainDecode c.phraseDecode := by
  unfold writeFiles at h
  cases hwritable : files.engDictWritable with
  | false =>
    rw [hwritable] at h
    cases h
  | true =>
    rw [hwritable] at h
    cases hwrite : writeTokens (encodeTables c) (writeLocalDictionary c.localDecode {}) tokens with
    | error e =>
      simp only [hwrite, if_true, Option.some.injEq] at h
      exact h.symm
    | ok bw =>
      simp only [hwrite, if_true] at h
      split_ifs at h
      · exact (Option.some.inj h).symm
      · exact (Option.some.inj h).symm

/-- The dictionary file of every run that comes to step 11, whether it succeeds or not: the words of
the list come first, in their new order. -/
lemma compress_engDict {ch : Choices} {files : CompressFiles} {c : TwoTierTextCompressor}
    {text : List UInt8} (h : (compress ch files c).engDict = some text) :
    ∃ listed added phrases, text = writeDictionaries (listed ++ added) phrases ∧
      listed.Perm (loadDictionaryWords files.dictionary) ∧
        ∀ w ∈ listed ++ added, w ≠ [] ∧ (10 : UInt8) ∉ w := by
  cases hinput : files.input with
  | none =>
    unfold compress at h
    rw [hinput] at h
    cases h
  | some input =>
    rw [compress_some hinput] at h
    split_ifs at h
    unfold finish at h
    cases hstats : printPhraseStats ch.sortPhrases (learn ch (tokenizeRaw input)
        (wordsFor ch files input) (resetFor (tokenizeRaw input) c)) with
    | none =>
      rw [hstats] at h
      cases h
    | some stats =>
      rw [hstats] at h
      dsimp only at h
      split_ifs at h
      have htext := writeFiles_engDict h
      set main := wordsFor ch files input
      have hperm : main.Perm (loadDictionaryWords files.dictionary) := mainWords_perm _ _ _
      set mined := minePhrases ch.orders (tokenizeRaw input) ⟨buildEncode main, main⟩
      change text = writeDictionaries mined.main.decode mined.phraseDecode at htext
      obtain ⟨added, hadded⟩ := (keeps_lookUp ⟨buildEncode main, main⟩
        (wildcardLookups ch.orders (tokenizeRaw input) ++
          regularLookups ch.orders (tokenizeRaw input))).decode
      rw [← minePhrases_main] at hadded
      change main ++ added = mined.main.decode at hadded
      refine ⟨main, added, mined.phraseDecode, by rw [hadded]; exact htext, hperm, fun w hw => ?_⟩
      rw [hadded] at hw
      rcases ((minePhrases_sizes rawTokens_isToken ch.orders (buildEncode_coherent main)).2.2 w).mp hw
        with hw | hw
      · exact loadDictionaryWords_line (hperm.mem_iff.mp hw)
      · exact line_of_isToken (rawTokens_isToken w (phraseWordSet_subset hw))

/-- A dictionary file that is fed back keeps every word of the list it was made from, as often as it
was there, and has at least one more. -/
lemma compress_feedback {ch : Choices} {files : CompressFiles} {c : TwoTierTextCompressor}
    {text : List UInt8} (h : (compress ch files c).engDict = some text) :
    (loadDictionaryWords files.dictionary).Subperm (loadDictionaryWords (some text)) ∧
      (loadDictionaryWords files.dictionary).length + 1 ≤ (loadDictionaryWords (some text)).length := by
  obtain ⟨listed, added, phrases, rfl, hperm, hline⟩ := compress_engDict h
  have hlower : listed.map (fun line => line.map toLower) = listed := by
    rw [List.map_congr_left fun w hw => loadDictionaryWords_lower (hperm.mem_iff.mp hw), List.map_id']
  have hmap : ∀ rest : List (List UInt8), (listed ++ rest).map (fun line => line.map toLower) =
      listed ++ rest.map (fun line => line.map toLower) := by
    intro rest
    rw [List.map_append, hlower]
  rw [loadDictionaryWords_written phrases hline, List.append_assoc listed, List.map_cons, hmap]
  constructor
  · refine hperm.symm.subperm.trans (List.Sublist.subperm ?_)
    exact (List.sublist_append_left _ _).trans (List.sublist_cons_self _ _)
  · rw [← hperm.length_eq, List.length_cons, List.length_append]
    omega

lemma write_content_ne {d : Disk} {name file : Name} (h : name ≠ file) (bytes : Option (List UInt8)) :
    (d.write file bytes).content name = d.content name := by
  cases bytes with
  | none => rfl
  | some bytes => exact Function.update_of_ne h _ _

lemma compress_words {ch : Choices} {files : CompressFiles} {d : Disk} {outputFile : Name}
    (hdict : files.dictionary = d.content engDict) (hout : outputFile ≠ engDict) {d' : Disk}
    (hd' : d' = (d.write engDict (compress ch files {}).engDict).write outputFile
      (compress ch files {}).compressed) :
    (words d).Subperm (words d') ∧ (words d).length +
      (if (compress ch files {}).status = .success then 1 else 0) ≤ (words d').length := by
  have hwords : words d = loadDictionaryWords files.dictionary := by rw [words, hdict]
  have hafter : words d' =
      loadDictionaryWords ((d.write engDict (compress ch files {}).engDict).content engDict) := by
    rw [words, hd', write_content_ne hout.symm]
  cases htext : (compress ch files {}).engDict with
  | none =>
    have hstatus : (compress ch files {}).status ≠ .success := by
      intro hsuccess
      obtain ⟨text, main, -, -, hs⟩ := compress_success hsuccess
      have hsome := hs.engDict
      rw [htext] at hsome
      cases hsome
    rw [hafter, htext, if_neg hstatus]
    exact ⟨List.Subperm.refl _, le_rfl⟩
  | some text =>
    obtain ⟨hsub, hlen⟩ := compress_feedback htext
    have hnew : (d.write engDict (some text)).content engDict = some text := by simp [Disk.write]
    rw [hafter, htext, hnew, hwords]
    refine ⟨hsub, le_trans ?_ hlen⟩
    split_ifs
    · exact le_rfl
    · exact Nat.le_succ _

lemma compressorMain_words {p : Process} {d d' : Disk} {code : ℕ} (hfeed : p.FeedsBack)
    (h : compressorMain p d = some (code, d')) :
    (words d).Subperm (words d') ∧
      (words d).length + (if code = 0 then 1 else 0) ≤ (words d').length := by
  unfold compressorMain at h
  split at h
  · cases h
  · rename_i mode dictFile inputFile outputFile rest hargs
    obtain ⟨hdict, hout⟩ := hfeed mode dictFile inputFile outputFile rest hargs
    split_ifs at h with hc hd
    · rw [hdict hc] at h
      cases hstatus : (compress p.ch ⟨d.content engDict, d.content inputFile, d.writable engDict,
          d.writable outputFile⟩ {}).status with
      | success =>
        simp only [hstatus, Option.some.injEq, Prod.mk.injEq] at h
        obtain ⟨rfl, hd'⟩ := h
        simpa only [hstatus, if_true] using compress_words rfl hout hd'.symm
      | failed e =>
        simp only [hstatus, Option.some.injEq, Prod.mk.injEq] at h
        obtain ⟨rfl, hd'⟩ := h
        simpa [hstatus] using compress_words rfl hout hd'.symm
      | undefinedIndex => simp [hstatus] at h
      | diverges => simp [hstatus] at h
    · obtain ⟨run, hrun, hend⟩ := Option.map_eq_some_iff.mp h
      rw [if_neg (decompress_error_ne_none hrun), Prod.mk.injEq] at hend
      obtain ⟨rfl, rfl⟩ := hend
      rw [words, words, write_content_ne hout.symm]
      exact ⟨List.Subperm.refl _, le_rfl⟩
    · cases h
      exact ⟨List.Subperm.refl _, le_rfl⟩
  · cases h
    exact ⟨List.Subperm.refl _, le_rfl⟩

def twoFiles : Disk where
  content name := if name = engDict then some [97, 10] else if name = [116] then some [97, 32, 98] else none
  writable _ := true

/-- `c eng.dict t o`, then `d eng.dict o p`, then `c eng.dict t o` again. -/
def threeProcesses : List Process :=
  [⟨[[99], engDict, [116], [111]], stableChoices, zeroUninit, 0⟩,
    ⟨[[100], engDict, [111], [112]], stableChoices, zeroUninit, 9⟩,
    ⟨[[99], engDict, [116], [111]], stableChoices, zeroUninit, 0⟩]

end HashCompress.CommandRuns
