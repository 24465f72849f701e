import HashCompress.PacketStatistics

/-!
# The polling loops of `xdp_stats`

`main` opens the pinned map and checks it; `stats_poll` opens it again for every table that it
prints, until it finds another map in its place. One turn of either loop opens the map once.
-/
namespace HashCompress.StatsPolling
open ParsingHelpers XdpProgram MessageNetwork PacketStatistics

/-- The fields of `struct bpf_map_info` that are looked at. -/
structure MapInfo where
  type : UInt32 := 0
  id : UInt32 := 0
  keySize : UInt32 := 0
  valueSize : UInt32 := 0
  maxEntries : UInt32 := 0
  deriving DecidableEq

/-- What the kernel does in one turn: the result of `bpf_obj_get`, what `bpf_obj_get_info_by_fd`
fills in unless it fails, the clock, the stack, and what the lookups find. -/
structure Turn where
  fd : ℤ
  info : Option MapInfo
  time : XdpAction → UInt64
  value : XdpAction → Datarec
  single : XdpAction → Option Datarec
  percpu : XdpAction → Option (List Datarec)

def exitFail : ℤ := 1
def exitFailBpf : ℤ := 40

def bpfMapTypeArray : UInt32 := 2
def bpfMapTypePercpuArray : UInt32 := 6

/-- `open_bpf_map_file`: the return value, `*info` and the descriptor table afterwards. A map of which
the info cannot be read stays open, and `EXIT_FAIL_BPF` is returned in place of its descriptor. -/
def openBpfMapFile (t : Turn) (info : MapInfo) (fds : Finset ℤ) : ℤ × MapInfo × Finset ℤ :=
  if t.fd < 0 then (t.fd, info, fds)
  else
    match t.info with
    | none => (exitFailBpf, info, insert t.fd fds)
    | some found => (t.fd, found, insert t.fd fds)

def checkMapFdInfo (info exp : MapInfo) : ℤ :=
  if exp.keySize ≠ 0 ∧ exp.keySize ≠ info.keySize then exitFail
  else if exp.valueSize ≠ 0 ∧ exp.valueSize ≠ info.valueSize then exitFail
  else if exp.maxEntries ≠ 0 ∧ exp.maxEntries ≠ info.maxEntries then exitFail
  else if exp.type ≠ 0 ∧ exp.type ≠ info.type then exitFail
  else 0

/-- `map_expect` of `main`. -/
def mapExpect : MapInfo where
  keySize := 4
  valueSize := 16
  maxEntries := 5

def Turn.map (t : Turn) (mapType : UInt32) : StatsMap :=
  if mapType = bpfMapTypeArray then .array t.single
  else if mapType = bpfMapTypePercpuArray then .percpuArray t.percpu
  else .other

def Turn.collect (t : Turn) (mapType : UInt32) (stats : XdpAction → Record) : XdpAction → Record :=
  statsCollect t.time t.value (fun _ => t.map mapType) stats

/-- The top of the loop of `main`, or of the loop of `stats_poll` with its parameters and local
variables, or the end. -/
inductive Phase where
  | opening
  | polling (statsMapFd : ℤ) (id mapType : UInt32) (info : MapInfo) (prev : XdpAction → Record)
  | exited (code : ℤ)

/-- The process: `info` is the one of `main`, `fds` its open descriptors, `tables` what it printed. -/
structure Poller where
  phase : Phase
  info : MapInfo
  fds : Finset ℤ
  tables : List (List Line)

/-- The rest of the loop of `main`, after `stats_poll` returned `err`. -/
def pollReturned (p : Poller) (statsMapFd err : ℤ) : Poller :=
  { p with
    fds := p.fds.erase statsMapFd
    phase := if err < 0 then .exited err else .opening }

def step (p : Poller) (t : Turn) : Poller :=
  match p.phase with
  | .exited _ => p
  | .opening =>
      let (fd, info, fds) := openBpfMapFile t p.info p.fds
      let p := { p with info := info, fds := fds }
      if fd < 0 then { p with phase := .exited exitFailBpf }
      else
        let err := checkMapFdInfo info mapExpect
        if err ≠ 0 then { p with fds := fds.erase fd, phase := .exited err }
        else
          -- `stats_poll` takes a first reading before its loop
          { p with phase := .polling fd info.id info.type {} (t.collect info.type fun _ => ⟨0, ⟨0, 0⟩⟩) }
  | .polling statsMapFd id mapType info prev =>
      let (fd, info, fds) := openBpfMapFile t info p.fds
      let p := { p with fds := fds }
      if fd < 0 then pollReturned p statsMapFd exitFailBpf
      else if id ≠ info.id then pollReturned { p with fds := fds.erase fd } statsMapFd 0
      else
        let stats := t.collect mapType prev
        { p with
          fds := fds.erase fd
          tables := p.tables ++ [statsPrint stats prev]
          phase := .polling statsMapFd id mapType info stats }

/-- `main` when it comes to its loop. -/
def start (fds : Finset ℤ) : Poller := ⟨.opening, {}, fds, []⟩

/-- The turns that the process takes before it ends; the kernel hands out no descriptor that is
open. -/
inductive Reaches (fds : Finset ℤ) : List Turn → Poller → Prop
  | nil : Reaches fds [] (start fds)
  | snoc {turns : List Turn} {p : Poller} {t : Turn} (h : Reaches fds turns p)
      (live : ∀ code, p.phase ≠ .exited code) (fresh : t.fd ∉ p.fds) :
      Reaches fds (turns ++ [t]) (step p t)

/-! ### Descriptors -/

/-- What is open under a return value of `open_bpf_map_file`: 40 stands for a failure. -/
def own (fd : ℤ) : Finset ℤ := ({fd} : Finset ℤ).erase exitFailBpf

def Turn.leak (t : Turn) : Finset ℤ := if 0 ≤ t.fd ∧ t.info = none then {t.fd} else ∅

def Phase.holds : Phase → Finset ℤ
  | .polling statsMapFd _ _ _ _ => own statsMapFd
  | _ => ∅

lemma mem_own {x fd : ℤ} : x ∈ own fd ↔ x ≠ exitFailBpf ∧ x = fd := by
  rw [own, Finset.mem_erase, Finset.mem_singleton]

lemma mem_leak {t : Turn} {x : ℤ} (h : x ∈ t.leak) : x = t.fd := by
  unfold Turn.leak at h
  split_ifs at h
  · exact Finset.mem_singleton.mp h
  · simp at h

lemma erase_union_own {fds : Finset ℤ} {fd : ℤ} (h : fd ∉ fds) : (fds ∪ own fd).erase fd = fds := by
  ext x
  rw [Finset.mem_erase, Finset.mem_union, mem_own]
  constructor
  · rintro ⟨hne, hx | hx⟩
    · exact hx
    · exact absurd hx.2 hne
  · intro hx
    exact ⟨fun heq => h (heq ▸ hx), Or.inl hx⟩

/-- What `open_bpf_map_file` does to the descriptors other than 40. -/
lemma openBpfMapFile_fds (t : Turn) (info : MapInfo) {fds : Finset ℤ} (fresh : t.fd ∉ fds) :
    let r := openBpfMapFile t info fds
    (r.1 < 0 → r.2.2.erase exitFailBpf = (fds ∪ t.leak).erase exitFailBpf) ∧
      (0 ≤ r.1 → r.1 ∉ (fds ∪ t.leak).erase exitFailBpf ∧
        r.2.2.erase exitFailBpf = (fds ∪ t.leak).erase exitFailBpf ∪ own r.1) := by
  unfold openBpfMapFile
  split_ifs with hneg
  · have hleak : t.leak = ∅ := if_neg fun h => by omega
    rw [hleak, Finset.union_empty]
    exact ⟨fun _ => rfl, fun h => absurd hneg (not_lt.mpr h)⟩
  · cases hinfo : t.info with
    | none =>
      have hleak : t.leak = {t.fd} := if_pos ⟨by omega, hinfo⟩
      have hnone : own exitFailBpf = ∅ := by simp [own]
      rw [hleak, Finset.union_singleton]
      dsimp only
      rw [hnone, Finset.union_empty]
      exact ⟨fun h => absurd h (by decide), fun _ => ⟨Finset.notMem_erase _ _, rfl⟩⟩
    | some found =>
      have hleak : t.leak = ∅ := if_neg fun h => by simp [hinfo] at h
      rw [hleak, Finset.union_empty]
      refine ⟨fun h => absurd h hneg, fun _ => ⟨fun h => fresh (Finset.mem_of_mem_erase h), ?_⟩⟩
      dsimp only
      rw [own, ← Finset.erase_union_distrib, Finset.union_singleton]

/-- The descriptors of the process other than 40: `base`, and the one that is polled. -/
structure Owns (base : Finset ℤ) (p : Poller) : Prop where
  fds_eq : p.fds.erase exitFailBpf = base.erase exitFailBpf ∪ p.phase.holds
  polled : ∀ statsMapFd id mapType info prev,
    p.phase = .polling statsMapFd id mapType info prev → statsMapFd ∉ base.erase exitFailBpf

lemma owns_polling {base fds : Finset ℤ} {statsMapFd : ℤ}
    (hfds : fds.erase exitFailBpf = base.erase exitFailBpf ∪ own statsMapFd)
    (hout : statsMapFd ∉ base.erase exitFailBpf) (id mapType : UInt32) (info main : MapInfo)
    (prev : XdpAction → Record) (tables : List (List Line)) :
    Owns base ⟨.polling statsMapFd id mapType info prev, main, fds, tables⟩ where
  fds_eq := hfds
  polled _ _ _ _ _ h := by
    cases h
    exact hout

lemma owns_idle {base fds : Finset ℤ} (hfds : fds.erase exitFailBpf = base.erase exitFailBpf)
    {phase : Phase} (hidle : ∀ fd id mapType info prev, phase ≠ .polling fd id mapType info prev)
    (info : MapInfo) (tables : List (List Line)) : Owns base ⟨phase, info, fds, tables⟩ where
  fds_eq := by
    cases phase with
    | polling fd id mapType info prev => exact absurd rfl (hidle fd id mapType info prev)
    | opening => exact hfds.trans (Finset.union_empty _).symm
    | exited code => exact hfds.trans (Finset.union_empty _).symm
  polled fd id mapType info prev h := absurd h (hidle fd id mapType info prev)

lemma erase_own {base fds : Finset ℤ} {fd : ℤ} (hout : fd ∉ base)
    (hfds : fds.erase exitFailBpf = base ∪ own fd) : (fds.erase fd).erase exitFailBpf = base := by
  rw [Finset.erase_right_comm, hfds, erase_union_own hout]

/-- One turn: nothing is left open but a map of which the info could not be read. -/
lemma Owns.step {base : Finset ℤ} {p : Poller} (h : Owns base p) {t : Turn}
    (live : ∀ code, p.phase ≠ .exited code) (fresh : t.fd ∉ p.fds) :
    Owns (base ∪ t.leak) (step p t) := by
  have hunion : ∀ s : Finset ℤ, (s ∪ t.leak).erase exitFailBpf =
      s.erase exitFailBpf ∪ t.leak.erase exitFailBpf := fun s => Finset.erase_union_distrib _ _ _
  have hfds := h.fds_eq
  have hpolled := h.polled
  obtain ⟨phase, main, fds, tables⟩ := p
  cases phase with
  | exited code => exact absurd rfl (live code)
  | opening =>
    have hbase : (fds ∪ t.leak).erase exitFailBpf = (base ∪ t.leak).erase exitFailBpf := by
      rw [hunion, hunion, hfds, show Phase.opening.holds = ∅ from rfl, Finset.union_empty]
    obtain ⟨hfail, hok⟩ := openBpfMapFile_fds t main fresh
    simp only [StatsPolling.step]
    generalize openBpfMapFile t main fds = r at hfail hok
    obtain ⟨fd, info, fds'⟩ := r
    dsimp only at hfail hok ⊢
    rw [hbase] at hfail hok
    split_ifs with hneg herr
    · exact owns_idle (hfail hneg) (by simp) _ _
    · obtain ⟨hout, hopen⟩ := hok (not_lt.mp hneg)
      exact owns_idle (erase_own hout hopen) (by simp) _ _
    · obtain ⟨hout, hopen⟩ := hok (not_lt.mp hneg)
      exact owns_polling hopen hout _ _ _ _ _ _
  | polling statsMapFd id mapType info prev =>
    have hbase : (fds ∪ t.leak).erase exitFailBpf =
        (base ∪ t.leak).erase exitFailBpf ∪ own statsMapFd := by
      rw [hunion, hunion, hfds, Finset.union_right_comm]
      rfl
    -- the map that is polled is open under another descriptor than the new one
    have hstays : statsMapFd ∉ (base ∪ t.leak).erase exitFailBpf := by
      rw [hunion, Finset.mem_union, not_or]
      refine ⟨hpolled _ _ _ _ _ rfl, fun hmem => fresh ?_⟩
      obtain ⟨hne, hleak⟩ := Finset.mem_erase.mp hmem
      have hheld : statsMapFd ∈ fds.erase exitFailBpf := by
        rw [hfds]
        exact Finset.mem_union_right _ (mem_own.mpr ⟨hne, rfl⟩)
      rw [← mem_leak hleak]
      exact Finset.mem_of_mem_erase hheld
    obtain ⟨hfail, hok⟩ := openBpfMapFile_fds t info fresh
    simp only [StatsPolling.step]
    generalize openBpfMapFile t info fds = r at hfail hok
    obtain ⟨fd, found, fds'⟩ := r
    dsimp only at hfail hok ⊢
    rw [hbase] at hfail hok
    split_ifs with hneg hid
    · exact owns_idle (erase_own hstays (hfail hneg)) (by simp [exitFailBpf]) _ _
    · obtain ⟨hout, hopen⟩ := hok (not_lt.mp hneg)
      exact owns_idle (erase_own hstays (erase_own hout hopen)) (by simp) _ _
    · obtain ⟨hout, hopen⟩ := hok (not_lt.mp hneg)
      exact owns_polling (erase_own hout hopen) hstays _ _ _ _ _ _

/-- The maps that were opened without their info. -/
def leaks (turns : List Turn) : Finset ℤ :=
  ((turns.filter fun t => 0 ≤ t.fd ∧ t.info = none).map Turn.fd).toFinset

lemma leaks_concat (turns : List Turn) (t : Turn) : leaks (turns ++ [t]) = leaks turns ∪ t.leak := by
  unfold leaks Turn.leak
  rw [List.filter_append, List.map_append, List.toFinset_append]
  split_ifs with h
  · simp [h]
  · simp [h]

lemma checkMapFdInfo_eq (info exp : MapInfo) : checkMapFdInfo info exp = 0 ∨
    checkMapFdInfo info exp = exitFail := by
  unfold checkMapFdInfo
  split_ifs <;> simp

/-- The value that `stats_poll` returns is never negative, so that only `main` itself ends the
process, with one of its own two codes. -/
lemma step_exited {p : Poller} (live : ∀ code, p.phase ≠ .exited code) {t : Turn} {code : ℤ}
    (h : (step p t).phase = .exited code) : p.phase = .opening ∧ (code = exitFail ∨ code = exitFailBpf) := by
  obtain ⟨phase, main, fds, tables⟩ := p
  cases phase with
  | exited code => exact absurd rfl (live code)
  | opening =>
    refine ⟨rfl, ?_⟩
    simp only [step] at h
    split_ifs at h with hneg herr
    · cases h
      exact Or.inr rfl
    · cases h
      exact Or.inl ((checkMapFdInfo_eq _ _).resolve_left herr)
  | polling statsMapFd id mapType info prev =>
    simp only [step, pollReturned, if_neg (show ¬ exitFailBpf < 0 by decide),
      if_neg (lt_irrefl (0 : ℤ))] at h
    split_ifs at h

lemma step_fds_subset (p : Poller) (t : Turn) : (step p t).fds ⊆ insert t.fd p.fds := by
  have hopen : ∀ info fds, (openBpfMapFile t info fds).2.2 ⊆ insert t.fd fds := by
    intro info fds
    unfold openBpfMapFile
    split_ifs
    · exact Finset.subset_insert _ _
    · cases t.info <;> exact subset_rfl
  obtain ⟨phase, main, fds, tables⟩ := p
  cases phase with
  | exited code => exact Finset.subset_insert _ _
  | opening =>
    simp only [step]
    split_ifs
    · exact hopen main fds
    · exact (Finset.erase_subset _ _).trans (hopen main fds)
    · exact hopen main fds
  | polling statsMapFd id mapType info prev =>
    have hreturned : ∀ (q : Poller) err, (pollReturned q statsMapFd err).fds = q.fds.erase statsMapFd :=
      fun q err => rfl
    simp only [step]
    split_ifs
    · rw [hreturned]
      exact (Finset.erase_subset _ _).trans (hopen info fds)
    · rw [hreturned]
      exact (Finset.erase_subset _ _).trans ((Finset.erase_subset _ _).trans (hopen info fds))
    · exact (Finset.erase_subset _ _).trans (hopen info fds)

lemma Reaches.fds_subset {fds : Finset ℤ} {turns : List Turn} {p : Poller} (h : Reaches fds turns p) :
    p.fds ⊆ fds ∪ (turns.map Turn.fd).toFinset := by
  induction h with
  | nil => exact Finset.subset_union_left
  | @snoc turns p t h live fresh ih =>
    rw [List.map_append, List.toFinset_append, ← Finset.union_assoc]
    refine (step_fds_subset p t).trans (Finset.insert_subset ?_ (ih.trans Finset.subset_union_left))
    exact Finset.mem_union_right _ (by simp)

/-- A turn of `stats_poll` that cannot read the info closes the descriptor 40, whatever it is. -/
lemma step_closes {p : Poller} {statsMapFd : ℤ} {id mapType : UInt32} {info : MapInfo}
    {prev : XdpAction → Record} (hphase : p.phase = .polling statsMapFd id mapType info prev)
    {t : Turn} (hfd : 0 ≤ t.fd) (hinfo : t.info = none) : exitFailBpf ∉ (step p t).fds := by
  obtain ⟨phase, main, fds, tables⟩ := p
  obtain rfl : phase = .polling statsMapFd id mapType info prev := hphase
  have hclosed : exitFailBpf ∉ (insert t.fd fds).erase exitFailBpf := Finset.notMem_erase _ _
  simp only [step, openBpfMapFile, if_neg (not_lt.mpr hfd), hinfo,
    if_neg (show ¬ exitFailBpf < 0 by decide)]
  split_ifs
  · exact fun h => hclosed (Finset.mem_of_mem_erase h)
  · exact hclosed

/-- Every run of `xdp_stats`: besides the descriptors that it was started with, the process holds
the map that it polls and those maps of which the info could not be read, and it ends only with
`EXIT_FAIL` or `EXIT_FAIL_BPF`. The exception is the descriptor 40: as `EXIT_FAIL_BPF` is taken for a
descriptor, it is closed at the next turn of `stats_poll` that cannot read the info. -/
theorem reaches_descriptors {fds : Finset ℤ} {turns : List Turn} {p : Poller}
    (h : Reaches fds turns p) :
    p.fds.erase exitFailBpf = (fds ∪ leaks turns ∪ p.phase.holds).erase exitFailBpf ∧
      (exitFailBpf ∈ p.fds → exitFailBpf ∈ fds ∨ ∃ t ∈ turns, t.fd = exitFailBpf) ∧
      (∀ statsMapFd id mapType info prev, p.phase = .polling statsMapFd id mapType info prev →
        ∀ t : Turn, 0 ≤ t.fd → t.info = none → exitFailBpf ∉ (step p t).fds) ∧
      ∀ code, p.phase = .exited code → code = exitFail ∨ code = exitFailBpf := by
  have howns : Owns (fds ∪ leaks turns) p := by
    induction h with
    | nil =>
      rw [show leaks [] = ∅ from rfl, Finset.union_empty]
      exact owns_idle rfl (by simp) _ _
    | snoc h live fresh ih =>
      rw [leaks_concat, ← Finset.union_assoc]
      exact ih.step live fresh
  have hheld : p.phase.holds.erase exitFailBpf = p.phase.holds := by
    cases p.phase with
    | polling fd id mapType info prev => exact Finset.erase_idem
    | opening => rfl
    | exited code => rfl
  refine ⟨?_, fun hmem => ?_, fun _ _ _ _ _ hphase t => step_closes hphase, fun code hcode => ?_⟩
  · rw [Finset.erase_union_distrib, hheld]
    exact howns.fds_eq
  · refine (Finset.mem_union.mp (h.fds_subset hmem)).imp_right fun hopened => ?_
    exact List.mem_map.mp (List.mem_toFinset.mp hopened)
  · cases h with
    | nil => cases hcode
    | snoc h live fresh => exact (step_exited live hcode).2

def sampleTurn (fd : ℤ) (info : Option MapInfo) (now : UInt64) : Turn :=
  ⟨fd, info, fun _ => now, fun _ => ⟨0, 0⟩, fun _ => none, fun _ => some []⟩

def sampleInfo : MapInfo := ⟨6, 7, 4, 16, 5⟩

/-- The map is found by `main` as descriptor 3 and then by `stats_poll` as descriptor 4. -/
def sampleTurns : List Turn := [sampleTurn 3 (some sampleInfo) 1, sampleTurn 4 (some sampleInfo) 2]

/-- The process has the descriptor 40 open from the start, until in its third turn it cannot read the
info of the map; the descriptor of that map stays open. -/
theorem reaches_descriptors_sample :
    let p := sampleTurns.foldl step (start {0, 1, 2, 40})
    let p' := step p (sampleTurn 4 none 3)
    40 ∈ p.fds ∧ 40 ∉ p'.fds ∧ p'.fds.erase 40 = {0, 1, 2, 3, 4} := by
  intro p p'
  have hreach : Reaches {0, 1, 2, 40} sampleTurns p := by
    refine Reaches.snoc (Reaches.snoc .nil (fun code h => ?_) (by decide)) (fun code h => ?_) (by decide)
    · cases h
    · cases h
  obtain ⟨-, -, hclosed, -⟩ := reaches_descriptors hreach
  have hreach' : Reaches {0, 1, 2, 40} (sampleTurns ++ [sampleTurn 4 none 3]) p' :=
    hreach.snoc (fun code h => by cases h) (by decide)
  exact ⟨by decide, hclosed _ _ _ _ _ rfl (sampleTurn 4 none 3) (by decide) rfl,
    (reaches_descriptors hreach').1.trans (by decide)⟩

/-! ### Tables -/

def Turn.Sees (t : Turn) (found : MapInfo) : Prop := 0 ≤ t.fd ∧ t.info = some found

lemma openBpfMapFile_sees {t : Turn} {found : MapInfo} (h : t.Sees found) (info : MapInfo)
    (fds : Finset ℤ) : openBpfMapFile t info fds = (t.fd, found, insert t.fd fds) := by
  unfold openBpfMapFile
  rw [if_neg (not_lt.mpr h.1), h.2]

/-- The map with this number was found to be what `main` expects, with this type. -/
def Checked (turns : List Turn) (id mapType : UInt32) : Prop :=
  ∃ t ∈ turns, ∃ found, t.Sees found ∧ found.id = id ∧ found.type = mapType ∧
    checkMapFdInfo found mapExpect = 0

/-- The table compares the readings of two turns, one right after the other, that found the same
checked map. -/
def Compares (turns : List Turn) (table : List Line) : Prop :=
  ∃ before t₁ t₂ after found₁ found₂ mapType base, turns = before ++ t₁ :: t₂ :: after ∧
    t₁.Sees found₁ ∧ t₂.Sees found₂ ∧ found₂.id = found₁.id ∧
    Checked (before ++ [t₁]) found₁.id mapType ∧
    table = statsPrint (t₂.collect mapType (t₁.collect mapType base)) (t₁.collect mapType base)

lemma Checked.concat {turns : List Turn} {id mapType : UInt32} (h : Checked turns id mapType)
    (t : Turn) : Checked (turns ++ [t]) id mapType := by
  obtain ⟨t₀, hmem, hfound⟩ := h
  exact ⟨t₀, List.mem_append_left _ hmem, hfound⟩

lemma Compares.concat {turns : List Turn} {table : List Line} (h : Compares turns table) (t : Turn) :
    Compares (turns ++ [t]) table := by
  obtain ⟨before, t₁, t₂, after, found₁, found₂, mapType, base, rfl, hfacts⟩ := h
  exact ⟨before, t₁, t₂, after ++ [t], found₁, found₂, mapType, base, by simp, hfacts⟩

def LastRead (turns : List Turn) (phase : Phase) : Prop :=
  ∀ statsMapFd id mapType info prev, phase = .polling statsMapFd id mapType info prev →
    ∃ before t found base, turns = before ++ [t] ∧ t.Sees found ∧ found.id = id ∧
      Checked turns id mapType ∧ prev = t.collect mapType base

lemma Reaches.lastRead {fds : Finset ℤ} {turns : List Turn} {p : Poller} (h : Reaches fds turns p)
    (hinfo : ∀ t ∈ turns, 0 ≤ t.fd → t.info ≠ none) :
    LastRead turns p.phase ∧ ∀ table ∈ p.tables, Compares turns table := by
  induction h with
  | nil => exact ⟨fun _ _ _ _ _ hphase => (by cases hphase), fun table hmem => (by cases hmem)⟩
  | @snoc turns p t h live fresh ih =>
    obtain ⟨hlast, htables⟩ := ih fun t ht => hinfo t (by simp [ht])
    have hkeep : ∀ table ∈ p.tables, Compares (turns ++ [t]) table := fun table hmem =>
      (htables table hmem).concat t
    have hsees : 0 ≤ t.fd → ∃ found, t.Sees found := fun hfd => by
      obtain ⟨found, hfound⟩ := Option.ne_none_iff_exists'.mp (hinfo t (by simp) hfd)
      exact ⟨found, hfd, hfound⟩
    have hidle : ∀ phase, (∀ fd id mapType info prev, phase ≠ .polling fd id mapType info prev) →
        LastRead (turns ++ [t]) phase := fun phase hno fd id mapType info prev hphase =>
      absurd hphase (hno fd id mapType info prev)
    obtain ⟨phase, main, held, tables⟩ := p
    by_cases hneg : t.fd < 0
    · cases phase with
      | exited code => exact absurd rfl (live code)
      | opening =>
        simp only [step, openBpfMapFile, if_pos hneg]
        exact ⟨hidle _ (by simp), hkeep⟩
      | polling statsMapFd id mapType info prev =>
        simp only [step, openBpfMapFile, if_pos hneg, pollReturned]
        exact ⟨hidle _ (by simp [exitFailBpf]), hkeep⟩
    · obtain ⟨found, hfound⟩ := hsees (not_lt.mp hneg)
      cases phase with
      | exited code => exact absurd rfl (live code)
      | opening =>
        simp only [step, openBpfMapFile_sees hfound, if_neg hneg]
        split_ifs with herr
        · exact ⟨hidle _ (by simp), hkeep⟩
        · refine ⟨fun _ _ _ _ _ hphase => ?_, hkeep⟩
          cases hphase
          exact ⟨turns, t, found, _, rfl, hfound, rfl,
            ⟨t, by simp, found, hfound, rfl, rfl, not_not.mp herr⟩, rfl⟩
      | polling statsMapFd id mapType info prev =>
        obtain ⟨before, t₁, found₁, base, hturns, hfound₁, hid₁, hchecked, rfl⟩ :=
          hlast _ _ _ _ _ rfl
        simp only [step, openBpfMapFile_sees hfound, if_neg hneg, pollReturned,
          if_neg (lt_irrefl (0 : ℤ))]
        split_ifs with hid
        · exact ⟨hidle _ (by simp), hkeep⟩
        · have hsame : found.id = id := (not_not.mp hid).symm
          refine ⟨fun _ _ _ _ _ hphase => ?_, fun table hmem => ?_⟩
          · cases hphase
            exact ⟨turns, t, found, _, rfl, hfound, hsame, hchecked.concat t, rfl⟩
          · rcases List.mem_append.mp hmem with hmem | hmem
            · exact hkeep table hmem
            · rw [List.mem_singleton.mp hmem]
              refine ⟨before, t₁, t, [], found₁, found, mapType, base, by simp [hturns], hfound₁,
                hfound, hsame.trans hid₁.symm, ?_, rfl⟩
              rw [← hturns, hid₁]
              exact hchecked

/-! ### Beside the taggers -/

section Watching
variable {n : ℕ} (events : List (Event (Fin n) Helpers Frame)) (cpus : Fin n → Cpu)

/-- The turns read the counters of the taggers: turn `j` falls between the events `lo j` and `hi j` of
their run, and wherever it finds the map `statsId` its lookups succeed, CPU by CPU, within these. -/
structure Watches (statsId : UInt32) (turns : List Turn) (lo hi : ℕ → ℕ) : Prop where
  order : ∀ j, hi j ≤ lo (j + 1)
  percpu : ∀ t ∈ turns, ∀ found, t.Sees found → found.id = statsId →
    found.type = bpfMapTypePercpuArray
  reads : ∀ j t found, turns[j]? = some t → t.Sees found → found.id = statsId →
    ∃ tp tb : XdpAction → Fin n → ℕ,
      (∀ a i, (lo j ≤ tp a i ∧ tp a i ≤ hi j) ∧ lo j ≤ tb a i ∧ tb a i ≤ hi j) ∧
        ∀ a, t.percpu a = some (observed events cpus (tp a) (tb a) a)

/-- The line shows every packet, and every byte, recorded between the two readings and none recorded
before the first began or after the second ended, unless 2^64 went by. -/
def Counts (line : Line) (lo hi lo' hi' : ℕ) : Prop :=
  let recorded := fun k => tally line.action (stateAt events cpus k).handled
  (recorded hi').sum < (recorded lo).sum + 2 ^ 64 →
    (recorded hi').length < (recorded lo).length + 2 ^ 64 →
    ((recorded lo').length ≤ line.packets.toNat + (recorded hi).length ∧
        line.packets.toNat + (recorded lo).length ≤ (recorded hi').length) ∧
      (recorded lo').sum ≤ line.bytes.toNat + (recorded hi).sum ∧
        line.bytes.toNat + (recorded lo).sum ≤ (recorded hi').sum

lemma collect_observed {t : Turn} {tp tb : XdpAction → Fin n → ℕ}
    (h : ∀ a, t.percpu a = some (observed events cpus (tp a) (tb a) a)) (stats : XdpAction → Record) :
    t.collect bpfMapTypePercpuArray stats = statsCollect t.time t.value
      (fun a => .percpuArray fun key => some (observed events cpus (tp a) (tb a) key)) stats := by
  have hmap : t.map bpfMapTypePercpuArray = .percpuArray t.percpu := rfl
  funext key
  rw [Turn.collect, statsCollect_eq, statsCollect_eq, hmap, mapCollect, mapCollect, h key]

/-- What every table on the screen is worth. In every run of `xdp_stats` beside taggers on any number of
CPUs that keep handling packets, each table compares two turns that follow each other and found the
same map, one that `main` has checked by then; and if that is the map of the taggers, its lines count
what they recorded between the two. -/
theorem reaches_counts {statsId : UInt32} {fds : Finset ℤ} {turns : List Turn} {p : Poller}
    {lo hi : ℕ → ℕ} (h : Reaches fds turns p) (hinfo : ∀ t ∈ turns, 0 ≤ t.fd → t.info ≠ none)
    (hwatch : Watches events cpus statsId turns lo hi) :
    ∀ table ∈ p.tables, ∃ j t₁ t₂ found₁ found₂, turns[j]? = some t₁ ∧ turns[j + 1]? = some t₂ ∧
      t₁.Sees found₁ ∧ t₂.Sees found₂ ∧ found₂.id = found₁.id ∧
      (∃ mapType, Checked (turns.take (j + 1)) found₁.id mapType) ∧ (found₁.id = statsId →
        ∀ line ∈ table, Counts events cpus line (lo j) (hi j) (lo (j + 1)) (hi (j + 1))) := by
  intro table htable
  obtain ⟨before, t₁, t₂, after, found₁, found₂, mapType, base, hturns, hsees₁, hsees₂, hsame,
    hchecked, htab⟩ := (h.lastRead hinfo).2 table htable
  have hget₁ : turns[before.length]? = some t₁ := by rw [hturns]; simp
  have hget₂ : turns[before.length + 1]? = some t₂ := by rw [hturns]; simp
  have htake : turns.take (before.length + 1) = before ++ [t₁] := by
    rw [hturns, List.take_append, List.take_of_length_le (Nat.le_succ _), Nat.add_sub_cancel_left]
    rfl
  refine ⟨before.length, t₁, t₂, found₁, found₂, hget₁, hget₂, hsees₁, hsees₂, hsame,
    ⟨mapType, by rw [htake]; exact hchecked⟩, ?_⟩
  intro hid line hline hsum hlength
  obtain ⟨t₀, ht₀, found₀, hsees₀, hid₀, htype₀, -⟩ := hchecked
  have hmem₀ : t₀ ∈ turns := by
    rw [hturns]
    rcases List.mem_append.mp ht₀ with ht₀ | ht₀
    · exact List.mem_append_left _ ht₀
    · rw [List.mem_singleton.mp ht₀]
      simp
  have htype : mapType = bpfMapTypePercpuArray :=
    htype₀.symm.trans (hwatch.percpu t₀ hmem₀ found₀ hsees₀ (hid₀.trans hid))
  obtain ⟨tp, tb, hfirst, hread⟩ := hwatch.reads _ t₁ found₁ hget₁ hsees₁ hid
  obtain ⟨tp', tb', hsecond, hread'⟩ := hwatch.reads _ t₂ found₂ hget₂ hsees₂ (hsame.trans hid)
  rw [htab, htype, collect_observed events cpus hread, collect_observed events cpus hread'] at hline
  exact statsPrint_between events cpus (hwatch.order _) hfirst hsecond t₁.time t₂.time t₁.value t₂.value
    base hline hsum hlength

end Watching

def onePacket : List (Event (Fin 1) Helpers Frame) := [.inject 0 headRoom sampleFrame]

/-- A turn that finds the map of the tagger and reads it after the first `k` events. -/
def watchTurn (fd : ℤ) (k : ℕ) : Turn :=
  ⟨fd, some sampleInfo, fun _ => UInt64.ofNat k, fun _ => ⟨0, 0⟩, fun _ => none,
    fun a => some (observed onePacket (fun _ => .zero) (fun _ => k) (fun _ => k) a)⟩

def watchTurns : List Turn := [watchTurn 3 0, watchTurn 4 1]

lemma watches_watchTurns : Watches onePacket (fun _ => .zero) 7 watchTurns id id := by
  have hinfo : ∀ {t : Turn} {found : MapInfo}, t ∈ watchTurns → t.Sees found → found = sampleInfo := by
    intro t found ht hsees
    simp only [watchTurns, List.mem_cons, List.not_mem_nil, or_false] at ht
    rcases ht with rfl | rfl <;> exact (Option.some.inj hsees.2).symm
  refine ⟨fun j => Nat.le_succ j, fun t ht found hsees _ => by rw [hinfo ht hsees]; rfl, ?_⟩
  intro j t found hget _ _
  refine ⟨fun _ _ => j, fun _ _ => j, fun _ _ => by simp, fun a => ?_⟩
  match j with
  | 0 => cases hget; rfl
  | 1 => cases hget; rfl
  | j + 2 => cases hget

lemma tally_onePacket : tally .pass (stateAt onePacket (fun _ => Cpu.zero) 1).handled = [70] := by
  have hcount : counted .pass headRoom sampleFrame = some 70 := by
    rw [counted_pass, if_pos (by decide), outLength, if_pos ⟨by decide, rfl, by simp [headRoom]⟩]
    rfl
  simp [stateAt, onePacket, run, MessageNetwork.step, Network.receive, Network.start, tally, hcount]

theorem reaches_counts_onePacket : ∃ p table line, Reaches {0, 1, 2} watchTurns p ∧
    table ∈ p.tables ∧ line ∈ table ∧ line.action = .pass ∧ line.packets.toNat = 1 ∧
      line.bytes.toNat = 70 := by
  have hreach : Reaches {0, 1, 2} watchTurns (watchTurns.foldl step (start {0, 1, 2})) := by
    refine Reaches.snoc (Reaches.snoc .nil (fun code h => ?_) (by decide)) (fun code h => ?_) (by decide)
    · cases h
    · cases h
  obtain ⟨table, htable, line, hline, haction⟩ : ∃ table ∈ (watchTurns.foldl step
      (start {0, 1, 2})).tables, ∃ line ∈ table, line.action = .pass := by
    refine ⟨statsPrint ((watchTurn 4 1).collect 6 ((watchTurn 3 0).collect 6 fun _ => ⟨0, ⟨0, 0⟩⟩))
      ((watchTurn 3 0).collect 6 fun _ => ⟨0, ⟨0, 0⟩⟩), List.mem_singleton.mpr rfl, ?_⟩
    simp [statsPrint, printLines, xdpActions, Turn.collect, statsCollect_eq, mapCollect, Turn.map,
      bpfMapTypeArray, bpfMapTypePercpuArray, watchTurn]
  obtain ⟨j, t₁, t₂, found₁, found₂, hget₁, hget₂, hsees, -, -, -, hcounts⟩ :=
    reaches_counts onePacket (fun _ => Cpu.zero) hreach (by decide) watches_watchTurns table htable
  have hj : j = 0 := by
    have hlt := (List.getElem?_eq_some_iff.mp hget₂).1
    simp only [watchTurns, List.length_cons, List.length_nil] at hlt
    omega
  subst hj
  cases hget₁
  have hzero : tally .pass (stateAt onePacket (fun _ => Cpu.zero) 0).handled = [] := rfl
  have hbetween := hcounts (by cases hsees.2; rfl) line hline
  simp only [Counts, haction, id_eq, Nat.zero_add, tally_onePacket, hzero] at hbetween
  obtain ⟨hpackets, hbytes⟩ := hbetween (by decide) (by decide)
  simp only [List.length_singleton, List.length_nil, List.sum_singleton, List.sum_nil] at hpackets hbytes
  exact ⟨_, table, line, hreach, htable, hline, haction, by omega, by omega⟩

end HashCompress.StatsPolling
