import HashCompress.Compressor

/-!
# Compressing and decompressing

No run of `decompress` returns true, so no text comes back from the two files that `compress`
writes.
-/
namespace HashCompress.Compressor

open WordText TallyMap CodeTables DictionaryFile TokenLoop PhraseMining Tokenizer

/-- `decompress` on the files of a `compress` run ends, returns true and writes the tokens of the
text joined by single blanks. -/
def RoundTrips (ch : Choices) (u : Uninit) (files : CompressFiles) (c : TwoTierTextCompressor) :
    Prop :=
  ∃ fuel run,
    decompress u fuel ⟨(compress ch files {}).engDict, (compress ch files {}).compressed, true⟩ c =
      some run ∧
    run.error = none ∧ run.output = files.input.map fun text => joinWords (tokenizeRaw text)

lemma decompress_error_ne_none {u : Uninit} {fuel : ℕ} {files : DecompressFiles}
    {c : TwoTierTextCompressor} {run : DecompressRun} (h : decompress u fuel files c = some run) :
    run.error ≠ none := by
  unfold decompress at h
  cases hdict : files.dictionary with
  | none =>
    simp only [hdict, Option.some.injEq] at h
    simp [← h]
  | some text =>
    cases hdata : files.compressed with
    | none =>
      simp only [hdict, hdata, Option.some.injEq] at h
      simp [← h]
    | some buffer =>
      simp only [hdict, hdata] at h
      split at h
      · obtain ⟨e, hend, rfl⟩ := Option.map_eq_some_iff.mp h
        have herror := tokenLoop_error_ne_none (loopStart_ok u text buffer) hend
        simpa using herror
      · cases h
        simp

/-- Whatever the word list, the text and the orders of traversal, the text is lost: `decompress`
fails or runs forever. -/
theorem not_roundTrips (ch : Choices) (u : Uninit) (files : CompressFiles)
    (c : TwoTierTextCompressor) : ¬ RoundTrips ch u files c := by
  rintro ⟨fuel, run, hrun, herror, -⟩
  exact decompress_error_ne_none hrun herror

def descending {α : Type} (key : α → UInt32) : SortOrder α fun a b => key a > key b where
  run := List.insertionSort fun a b => key b ≤ key a
  perm := List.perm_insertionSort _
  sorted l := by
    have htrans : IsTrans α fun a b => key b ≤ key a := ⟨fun _ _ _ hab hbc => UInt32.le_trans hbc hab⟩
    have htotal : Std.Total fun a b : α => key b ≤ key a := ⟨fun a b => UInt32.le_total (key b) (key a)⟩
    refine (List.pairwise_insertionSort (fun a b => key b ≤ key a) l).imp fun {a b} hab => ?_
    exact UInt32.not_lt.mpr hab

def stableChoices : Choices := ⟨.same, descending Prod.snd, descending Prod.fst⟩

/-- The word list and the text `a`. -/
def oneWordFiles : CompressFiles where
  dictionary := some [0x61, 10]
  input := some [0x61]

lemma compress_oneWord : (compress stableChoices oneWordFiles {}).status = .success := by
  decide +kernel

theorem roundTrip_lost_oneWord : (compress stableChoices oneWordFiles {}).status = .success ∧
    ¬ RoundTrips stableChoices zeroUninit oneWordFiles {} := by
  refine ⟨compress_oneWord, ?_⟩
  rintro ⟨fuel, run, hrun, herror, -⟩
  exact decompress_error_ne_none hrun herror

end HashCompress.Compressor
