import HashCompress.FrameHops

/-!
# The packet counters

`xdp_stats_record_action` counts on the CPU that handles the packet; `xdp_stats.c` adds up what it
reads from the CPUs, one after the other, while packets keep arriving.
-/
namespace HashCompress.PacketStatistics
open ParsingHelpers XdpProgram PacketPreservation MessageNetwork FrameHops

/-- `map_get_value_percpu_array`: the sum over the possible CPUs, or, when the lookup fails, what
the caller's `value` held. -/
def mapGetValuePercpuArray (lookup : Option (List Datarec)) (value : Datarec) : Datarec :=
  match lookup with
  | none => value
  | some values =>
      values.foldl (fun sum v => ⟨sum.rxPackets + v.rxPackets, sum.rxBytes + v.rxBytes⟩) ⟨0, 0⟩

def mapGetValueArray (lookup : Option Datarec) (value : Datarec) : Datarec := lookup.getD value

structure Record where
  timestamp : UInt64
  total : Datarec

/-- The map as user space finds it, by its type. -/
inductive StatsMap where
  | array (lookup : XdpAction → Option Datarec)
  | percpuArray (lookup : XdpAction → Option (List Datarec))
  | other

/-- `map_collect`: the time is taken first, and an unknown map type leaves the totals alone.
`value` is the uninitialised local variable. -/
def mapCollect (time : UInt64) (value : Datarec) (map : StatsMap) (key : XdpAction) (r : Record) :
    Bool × Record :=
  match map with
  | .array lookup => (true, ⟨time, mapGetValueArray (lookup key) value⟩)
  | .percpuArray lookup => (true, ⟨time, mapGetValuePercpuArray (lookup key) value⟩)
  | .other => (false, { r with timestamp := time })

/-- The keys from 0 up to `XDP_ACTION_MAX`. -/
def xdpActions : List XdpAction := [.aborted, .drop, .pass, .tx, .redirect]

/-- `stats_collect`, with the clock, the stack and the map as each `map_collect` finds them. -/
def statsCollect (time : XdpAction → UInt64) (value : XdpAction → Datarec)
    (map : XdpAction → StatsMap) (stats : XdpAction → Record) : XdpAction → Record :=
  xdpActions.foldl (fun stats key =>
    Function.update stats key (mapCollect (time key) (value key) (map key) key (stats key)).2) stats

/-- The integers of one line of `stats_print`. The rates are these divided by the period. -/
structure Line where
  action : XdpAction
  packets : UInt64
  bytes : UInt64
  totalPackets : UInt64
  totalKbytes : UInt64

/-- The loop of `stats_print` over the remaining actions; a period of zero ends it. -/
def printLines (stats prev : XdpAction → Record) : List XdpAction → List Line
  | [] => []
  | i :: rest =>
      let r := stats i
      let p := prev i
      if r.timestamp - p.timestamp = 0 then []
      else
        ⟨i, r.total.rxPackets - p.total.rxPackets, r.total.rxBytes - p.total.rxBytes,
          r.total.rxPackets, r.total.rxBytes / 1000⟩ :: printLines stats prev rest

def statsPrint (stats prev : XdpAction → Record) : List Line := printLines stats prev xdpActions

theorem statsCollect_eq (time : XdpAction → UInt64) (value : XdpAction → Datarec)
    (map : XdpAction → StatsMap) (stats : XdpAction → Record) (key : XdpAction) :
    statsCollect time value map stats key =
      (mapCollect (time key) (value key) (map key) key (stats key)).2 := by
  cases key <;> rfl

theorem mem_printLines {stats prev : XdpAction → Record} {actions : List XdpAction} {line : Line}
    (h : line ∈ printLines stats prev actions) :
    line.packets = (stats line.action).total.rxPackets - (prev line.action).total.rxPackets ∧
      line.bytes = (stats line.action).total.rxBytes - (prev line.action).total.rxBytes := by
  induction actions with
  | nil => simp [printLines] at h
  | cons i rest ih =>
    simp only [printLines] at h
    split_ifs at h with hperiod
    · simp at h
    · rcases List.mem_cons.mp h with rfl | h
      · exact ⟨rfl, rfl⟩
      · exact ih h

/-- Under which action a frame is counted, and with how many bytes. -/
def recorded (env : Helpers) (f : Frame) : Option (XdpAction × ℕ) :=
  if env.statsLookup then
    some (if lets f then .pass else .aborted, (hashFrame env f .zero).frame.length)
  else none

/-- The length counted under `action`, if the frame is. -/
def counted (action : XdpAction) (env : Helpers) (f : Frame) : Option ℕ :=
  (recorded env f).bind fun r => if r.1 = action then some r.2 else none

section Counters
variable {κ : Type*}

/-- The lengths counted under `action`, packet by packet. -/
def tally (action : XdpAction) (history : List (κ × Helpers × Frame)) : List ℕ :=
  history.filterMap fun x => counted action x.2.1 x.2.2

theorem tally_cons (action : XdpAction) (x : κ × Helpers × Frame)
    (history : List (κ × Helpers × Frame)) :
    tally action (x :: history) = (counted action x.2.1 x.2.2).toList ++ tally action history := by
  cases h : counted action x.2.1 x.2.2 <;> simp [tally, h]

theorem handleFrame_stats (env : Helpers) (f : Frame) (cpu : Cpu) (action : XdpAction) :
    (handleFrame env f cpu).2.stats action =
      ⟨(cpu.stats action).rxPackets + UInt64.ofNat (counted action env f).toList.length,
        (cpu.stats action).rxBytes + UInt64.ofNat (counted action env f).toList.sum⟩ := by
  simp only [handleFrame, xdpIpHashFunc, xdpStatsRecordAction, hashFrame_action,
    hashFrame_frame env f cpu.maps Sha256Kernel.Maps.zero, counted, recorded]
  cases env.statsLookup with
  | false => simp
  | true =>
    generalize (if lets f then XdpAction.pass else XdpAction.aborted) = a
    by_cases ha : a = action
    · subst ha
      simp
    · simp [ha, Function.update_of_ne (Ne.symm ha)]

theorem foldl_stats (history : List (κ × Helpers × Frame)) (cpu : Cpu) (action : XdpAction) :
    (history.foldl (fun q x => (handleFrame x.2.1 x.2.2 q).2) cpu).stats action =
      ⟨(cpu.stats action).rxPackets + UInt64.ofNat (tally action history).length,
        (cpu.stats action).rxBytes + UInt64.ofNat (tally action history).sum⟩ := by
  induction history generalizing cpu with
  | nil => simp [tally]
  | cons x history ih =>
    rw [List.foldl_cons, ih, handleFrame_stats, tally_cons, List.length_append, List.sum_append,
      UInt64.ofNat_add, UInt64.ofNat_add]
    simp only [UInt64.add_assoc]

theorem tally_isPrefix_of_le {history history' : List (κ × Helpers × Frame)} (action : XdpAction)
    (h : history <+: history') : tally action history <+: tally action history' :=
  h.filterMap _

theorem tally_filter_sum {n : ℕ} (action : XdpAction) (history : List (Fin n × Helpers × Frame))
    (size : List ℕ → ℕ) (hnil : size [] = 0) (happ : ∀ l l', size (l ++ l') = size l + size l') :
    ∑ i, size (tally action (history.filter (·.1 = i))) = size (tally action history) := by
  induction history with
  | nil => simp [tally, hnil]
  | cons x history ih =>
    have hterm : ∀ i, size (tally action ((x :: history).filter (·.1 = i))) =
        (if x.1 = i then size (counted action x.2.1 x.2.2).toList else 0) +
          size (tally action (history.filter (·.1 = i))) := by
      intro i
      by_cases hi : x.1 = i
      · simp [hi, tally_cons, happ]
      · simp [hi]
    rw [Finset.sum_congr rfl fun i _ => hterm i, Finset.sum_add_distrib, ih, tally_cons, happ]
    simp

end Counters

theorem foldl_datarec (values : List Datarec) (sum : Datarec) :
    values.foldl (fun sum v => ⟨sum.rxPackets + v.rxPackets, sum.rxBytes + v.rxBytes⟩) sum =
      ⟨sum.rxPackets + (values.map Datarec.rxPackets).sum,
        sum.rxBytes + (values.map Datarec.rxBytes).sum⟩ := by
  induction values generalizing sum with
  | nil => simp
  | cons v values ih =>
    rw [List.foldl_cons, ih]
    simp only [List.map_cons, List.sum_cons, UInt64.add_assoc]

theorem sum_ofNat {n : ℕ} (x : Fin n → ℕ) :
    ∑ i, UInt64.ofNat (x i) = UInt64.ofNat (∑ i, x i) :=
  (map_sum (AddMonoidHom.mk ⟨UInt64.ofNat, rfl⟩ UInt64.ofNat_add) x Finset.univ).symm

section Readings
variable {n : ℕ} (events : List (Event (Fin n) Helpers Frame)) (cpus : Fin n → Cpu)

/-- The network after the first `k` events of a run. -/
def stateAt (k : ℕ) : Network (Fin n) Cpu Helpers Frame :=
  run handleFrame (events.take k) (.start cpus)

/-- The records as the lookup finds them: the counters of CPU `i` after the first `tp i` and
`tb i` events, since the CPUs are visited one after the other and do not stop meanwhile. -/
def observed (tp tb : Fin n → ℕ) (action : XdpAction) : List Datarec :=
  List.ofFn fun i => ⟨(((stateAt events cpus (tp i)).nodes i).stats action).rxPackets,
    (((stateAt events cpus (tb i)).nodes i).stats action).rxBytes⟩

/-- The lengths counted on CPU `i` by the first `k` events. -/
def tallyOn (action : XdpAction) (i : Fin n) (k : ℕ) : List ℕ :=
  tally action ((stateAt events cpus k).handled.filter (·.1 = i))

/-- The sums of `map_get_value_percpu_array` in terms of what each CPU had counted. -/
theorem mapGetValuePercpuArray_observed (tp tb : Fin n → ℕ) (action : XdpAction) (value : Datarec) :
    mapGetValuePercpuArray (some (observed events cpus tp tb action)) value =
      ⟨(∑ i, ((cpus i).stats action).rxPackets) +
          UInt64.ofNat (∑ i, (tallyOn events cpus action i (tp i)).length),
        (∑ i, ((cpus i).stats action).rxBytes) +
          UInt64.ofNat (∑ i, (tallyOn events cpus action i (tb i)).sum)⟩ := by
  have hstats : ∀ i k, ((stateAt events cpus k).nodes i).stats action =
      ⟨((cpus i).stats action).rxPackets + UInt64.ofNat (tallyOn events cpus action i k).length,
        ((cpus i).stats action).rxBytes + UInt64.ofNat (tallyOn events cpus action i k).sum⟩ := by
    intro i k
    rw [stateAt, nodes_run, foldl_stats]
    rfl
  simp only [mapGetValuePercpuArray, foldl_datarec, observed, hstats, List.map_ofFn,
    Function.comp_def, List.sum_ofFn, Finset.sum_add_distrib, sum_ofNat, UInt64.zero_add]

theorem tallyOn_isPrefix_of_le (action : XdpAction) (i : Fin n) {k k' : ℕ} (h : k ≤ k') :
    tallyOn events cpus action i k <+: tallyOn events cpus action i k' := by
  apply tally_isPrefix_of_le
  apply List.IsPrefix.filter
  have hsplit := List.take_append_drop k (events.take k')
  rw [List.take_take, Nat.min_eq_left h] at hsplit
  rw [stateAt, stateAt, ← hsplit, run, run, List.foldl_append]
  exact handled_prefix _ _

theorem sum_tallyOn (action : XdpAction) (k : ℕ) :
    ∑ i, (tallyOn events cpus action i k).length =
        (tally action (stateAt events cpus k).handled).length ∧
      ∑ i, (tallyOn events cpus action i k).sum =
        (tally action (stateAt events cpus k).handled).sum :=
  ⟨tally_filter_sum action _ List.length rfl fun _ _ => List.length_append,
    tally_filter_sum action _ List.sum rfl fun _ _ => List.sum_append⟩

end Readings

/-- The length with which a frame leaves a tagger. -/
def outLength (env : Helpers) (f : Frame) : ℕ :=
  f.length +
    if (ipv4Header f).isSome ∧ env.lookups.temp = true ∧ env.adjustHead ≠ none then 36 else 0

theorem hashFrame_length (env : Helpers) (f : Frame) (m : Sha256Kernel.Maps) :
    (hashFrame env f m).frame.length = outLength env f := by
  cases hip : ipv4Header f with
  | none => simp [hashFrame_rejected env m hip, outLength, hip]
  | some pos =>
    obtain ⟨h14, h5, hfit⟩ := ipv4Header_bounds hip
    obtain ⟨-, -, hins, hkeep, hset⟩ := tagFrame_outcome env m hip
    rw [hashFrame_accepted env m hip, outLength]
    cases hi : (tagFrame env f pos m).inserted with
    | false =>
      have hno : ¬ (env.lookups.temp = true ∧ env.adjustHead ≠ none) := by
        rw [← hins, hi]
        simp
      simp [hkeep hi, OptionInsert.store16, hip, hno]
    | true =>
      obtain ⟨room, hroom⟩ := Option.ne_none_iff_exists'.mp (hins.mp hi).2
      have hlen : (OptionInsert.store16 f (pos + 10) 0).length = f.length := store16_length _ _ _
      rw [hset hi, hroom, OptionInsert.addIpOptionHash_some room _ (by omega),
        if_pos ⟨by simp [hip], (hins.mp hi).1, by simp⟩]
      simp only [List.length_append, List.length_take, List.length_drop,
        OptionInsert.taggedHeader_length, OptionInsert.optionBytes_length]
      omega

theorem counted_pass (env : Helpers) (f : Frame) : counted .pass env f =
    if env.statsLookup && lets f then some (outLength env f) else none := by
  simp only [counted, recorded, hashFrame_length]
  cases env.statsLookup <;> cases lets f <;> simp

theorem counted_aborted (env : Helpers) (f : Frame) : counted .aborted env f =
    if env.statsLookup && !lets f then some f.length else none := by
  have hout : lets f = false → outLength env f = f.length := by
    intro h
    have hnone : ipv4Header f = none := by
      by_contra hne
      obtain ⟨pos, hpos⟩ := Option.ne_none_iff_exists'.mp hne
      simp [lets_of_ipv4Header hpos] at h
    simp [outLength, hnone]
  simp only [counted, recorded, hashFrame_length]
  cases env.statsLookup with
  | false => rfl
  | true =>
    cases hl : lets f with
    | false => simp [hout hl]
    | true => simp

theorem counted_other {action : XdpAction} (hp : action ≠ .pass) (ha : action ≠ .aborted)
    (env : Helpers) (f : Frame) : counted action env f = none := by
  simp only [counted, recorded]
  cases env.statsLookup <;> cases lets f <;> simp [Ne.symm hp, Ne.symm ha]

theorem filterMap_if {α : Type*} (p : α → Bool) (size : α → ℕ) (l : List α) :
    (l.filterMap fun x => if p x then some (size x) else none) = (l.filter p).map size := by
  induction l with
  | nil => rfl
  | cons x l ih => cases h : p x <;> simp [h, ih]

/-- Every packet is counted once, whichever CPU handled it and whatever the others did: when
nothing is moving, the sums that `xdp_stats` shows are those at the start plus one for each packet
whose counter was found, with the bytes of the frame as it left the tagger. -/
theorem totals_exact {n : ℕ} (events : List (Event (Fin n) Helpers Frame)) (cpus : Fin n → Cpu)
    (value : Datarec) :
    let handled := (run handleFrame events (.start cpus)).handled
    let passed := handled.filter fun x => x.2.1.statsLookup && lets x.2.2
    let aborted := handled.filter fun x => x.2.1.statsLookup && !lets x.2.2
    let reading := fun s : Network (Fin n) Cpu Helpers Frame => fun action =>
      mapGetValuePercpuArray (some (List.ofFn fun i => (s.nodes i).stats action)) value
    let before := reading (.start cpus)
    let after := reading (run handleFrame events (.start cpus))
    after .pass = ⟨(before .pass).rxPackets + UInt64.ofNat passed.length, (before .pass).rxBytes +
        UInt64.ofNat (passed.map fun x => outLength x.2.1 x.2.2).sum⟩ ∧
      after .aborted = ⟨(before .aborted).rxPackets + UInt64.ofNat aborted.length,
        (before .aborted).rxBytes + UInt64.ofNat (aborted.map fun x => x.2.2.length).sum⟩ ∧
      ∀ action, action ≠ .pass → action ≠ .aborted → after action = before action := by
  intro handled passed aborted reading before after
  have hafter : ∀ action, after action = ⟨(before action).rxPackets +
      UInt64.ofNat (tally action handled).length, (before action).rxBytes +
        UInt64.ofNat (tally action handled).sum⟩ := by
    intro action
    obtain ⟨hlen, hsum⟩ := sum_tallyOn events cpus action events.length
    have hobs := mapGetValuePercpuArray_observed events cpus (fun _ => events.length)
      (fun _ => events.length) action value
    rw [hlen, hsum] at hobs
    have hstate : stateAt events cpus events.length = run handleFrame events (.start cpus) := by
      rw [stateAt, List.take_length]
    simp only [observed, hstate] at hobs
    have hbefore : before action = ⟨∑ i, ((cpus i).stats action).rxPackets,
        ∑ i, ((cpus i).stats action).rxBytes⟩ := by
      simp only [before, reading, Network.start, mapGetValuePercpuArray, foldl_datarec, List.map_ofFn,
        Function.comp_def, List.sum_ofFn, UInt64.zero_add]
    rw [hbefore]
    exact hobs
  refine ⟨?_, ?_, ?_⟩
  · rw [hafter .pass, tally]
    simp only [counted_pass, filterMap_if, List.length_map, passed]
  · rw [hafter .aborted, tally]
    simp only [counted_aborted, filterMap_if, List.length_map, aborted]
  · intro action hp ha
    rw [hafter action, tally]
    simp [counted_other hp ha]

/-- The difference of two sums of growing counters, read at any times within two windows that
follow each other. -/
theorem window_difference {n : ℕ} {base : UInt64} (count : Fin n → ℕ → ℕ)
    (hmono : ∀ i, Monotone (count i)) {t t' : Fin n → ℕ} {lo hi lo' hi' : ℕ}
    (ht : ∀ i, lo ≤ t i ∧ t i ≤ hi) (ht' : ∀ i, lo' ≤ t' i ∧ t' i ≤ hi') (hnext : hi ≤ lo')
    (hfit : ∑ i, count i hi' < ∑ i, count i lo + 2 ^ 64) :
    let d := (base + UInt64.ofNat (∑ i, count i (t' i)) -
      (base + UInt64.ofNat (∑ i, count i (t i)))).toNat
    ∑ i, count i lo' ≤ d + ∑ i, count i hi ∧ d + ∑ i, count i lo ≤ ∑ i, count i hi' := by
  intro d
  have hsum : ∀ {u v : Fin n → ℕ}, (∀ i, u i ≤ v i) → ∑ i, count i (u i) ≤ ∑ i, count i (v i) :=
    fun h => Finset.sum_le_sum fun i _ => hmono i (h i)
  have hlo := hsum fun i => (ht i).1
  have hhi := hsum fun i => (ht i).2
  have hlo' := hsum fun i => (ht' i).1
  have hhi' := hsum fun i => (ht' i).2
  have hmid := hsum fun _ => hnext
  have hd : d = ∑ i, count i (t' i) - ∑ i, count i (t i) := by
    obtain ⟨c, hc⟩ := Nat.exists_eq_add_of_le (show ∑ i, count i (t i) ≤ ∑ i, count i (t' i) by omega)
    have hsub : ∀ a b e : UInt64, a + (b + e) - (a + b) = e := by
      intro a b e
      rw [← UInt64.add_assoc, UInt64.add_comm (a + b) e, UInt64.add_sub_cancel]
    simp only [d]
    rw [hc, UInt64.ofNat_add, hsub, UInt64.toNat_ofNat', Nat.mod_eq_of_lt (by omega)]
    omega
  omega

/-- Two collections that follow each other in any run, each reading the CPUs one by one while
packets arrive: every line that `stats_print` then shows counts all packets recorded between the two
collections and none recorded outside them, and the same holds of the bytes, also across a wrap of
the 64-bit counters. -/
theorem statsPrint_between {n : ℕ} (events : List (Event (Fin n) Helpers Frame))
    (cpus : Fin n → Cpu) {lo hi lo' hi' : ℕ} (hnext : hi ≤ lo')
    {tp tb tp' tb' : XdpAction → Fin n → ℕ}
    (hfirst : ∀ a i, (lo ≤ tp a i ∧ tp a i ≤ hi) ∧ lo ≤ tb a i ∧ tb a i ≤ hi)
    (hsecond : ∀ a i, (lo' ≤ tp' a i ∧ tp' a i ≤ hi') ∧ lo' ≤ tb' a i ∧ tb' a i ≤ hi')
    (time time' : XdpAction → UInt64) (value value' : XdpAction → Datarec)
    (stats : XdpAction → Record) {line : Line}
    (hline : line ∈
      let prev := statsCollect time value (fun a => .percpuArray fun key =>
        some (observed events cpus (tp a) (tb a) key)) stats
      statsPrint (statsCollect time' value' (fun a => .percpuArray fun key =>
        some (observed events cpus (tp' a) (tb' a) key)) prev) prev)
    (hfit : (tally line.action (stateAt events cpus hi').handled).sum <
      (tally line.action (stateAt events cpus lo).handled).sum + 2 ^ 64)
    (hfit' : (tally line.action (stateAt events cpus hi').handled).length <
      (tally line.action (stateAt events cpus lo).handled).length + 2 ^ 64) :
    let recorded := fun k => tally line.action (stateAt events cpus k).handled
    ((recorded lo').length ≤ line.packets.toNat + (recorded hi).length ∧
        line.packets.toNat + (recorded lo).length ≤ (recorded hi').length) ∧
      (recorded lo').sum ≤ line.bytes.toNat + (recorded hi).sum ∧
        line.bytes.toNat + (recorded lo).sum ≤ (recorded hi').sum := by
  intro recorded
  simp only [recorded]
  obtain ⟨hpackets, hbytes⟩ := mem_printLines hline
  generalize line.action = a at *
  simp only [statsCollect_eq, mapCollect, mapGetValuePercpuArray_observed] at hpackets hbytes
  have hlen : ∀ i, Monotone fun k => (tallyOn events cpus a i k).length := fun i _ _ h =>
    (tallyOn_isPrefix_of_le events cpus a i h).length_le
  have hsum : ∀ i, Monotone fun k => (tallyOn events cpus a i k).sum := fun i _ _ h =>
    (tallyOn_isPrefix_of_le events cpus a i h).sublist.sum_le_sum fun _ _ => Nat.zero_le _
  have hrec := fun k => sum_tallyOn events cpus a k
  rw [hpackets, hbytes]
  simp only [← (hrec _).1, ← (hrec _).2] at hfit hfit' ⊢
  exact ⟨window_difference _ hlen (fun i => (hfirst a i).1) (fun i => (hsecond a i).1) hnext hfit',
    window_difference _ hsum (fun i => (hfirst a i).2) (fun i => (hsecond a i).2) hnext hfit⟩

end HashCompress.PacketStatistics
