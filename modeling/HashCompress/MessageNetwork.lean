import Mathlib

/-!
# Message networks

Nodes with a state of their own handle messages one at a time; what a node lets through is in
flight until it is handled by another node, lost, or delivered to an observer. Messages in flight
are taken in any order and may be duplicated.
-/
namespace HashCompress.MessageNetwork

variable {κ σ ε μ : Type*}

/-- `handled` is the history of the nodes, oldest first: which node handled which message, under
which circumstances. -/
structure Network (κ σ ε μ : Type*) where
  nodes : κ → σ
  inFlight : List μ
  delivered : List μ
  handled : List (κ × ε × μ)

inductive Event (κ ε μ : Type*) where
  | inject (node : κ) (env : ε) (m : μ)
  | forward (node : κ) (env : ε) (i : ℕ)
  | lose (i : ℕ)
  | duplicate (i : ℕ)
  | deliver (i : ℕ)

/-- The circumstances under which a node works, where an event makes one work. -/
def Event.env : Event κ ε μ → Option ε
  | .inject _ env _ => some env
  | .forward _ env _ => some env
  | _ => none

/-- What a node handles from outside the network, and which node. -/
def Event.injected : Event κ ε μ → Option (κ × ε × μ)
  | .inject node env m => some (node, env, m)
  | _ => none

def Network.start (nodes : κ → σ) : Network κ σ ε μ := ⟨nodes, [], [], []⟩

section Steps
variable [DecidableEq κ] (handle : ε → μ → σ → Option μ × σ)

def Network.receive (s : Network κ σ ε μ) (node : κ) (env : ε) (m : μ) : Network κ σ ε μ :=
  let r := handle env m (s.nodes node)
  { s with
    nodes := Function.update s.nodes node r.2
    inFlight := r.1.toList ++ s.inFlight
    handled := s.handled ++ [(node, env, m)] }

def step (s : Network κ σ ε μ) : Event κ ε μ → Network κ σ ε μ
  | .inject node env m => s.receive handle node env m
  | .forward node env i =>
      match s.inFlight[i]? with
      | none => s
      | some m => { s with inFlight := s.inFlight.eraseIdx i }.receive handle node env m
  | .lose i => { s with inFlight := s.inFlight.eraseIdx i }
  | .duplicate i => { s with inFlight := s.inFlight[i]?.toList ++ s.inFlight }
  | .deliver i =>
      { s with
        inFlight := s.inFlight.eraseIdx i
        delivered := s.delivered ++ s.inFlight[i]?.toList }

def run (events : List (Event κ ε μ)) (s : Network κ σ ε μ) : Network κ σ ε μ :=
  events.foldl (step handle) s

/-- What the circumstances make of a message, when the node's state has no part in it. -/
def hops (out : ε → μ → Option μ) (envs : List ε) (m : μ) : Option μ :=
  envs.foldlM (fun m env => out env m) m

end Steps

theorem hops_concat (out : ε → μ → Option μ) (envs : List ε) (env : ε) (m : μ) :
    hops out (envs ++ [env]) m = (hops out envs m).bind (out env) := by
  simp only [hops, List.foldlM_append, List.foldlM_cons, List.foldlM_nil, Option.bind_eq_bind,
    Option.pure_def, Option.bind_fun_some]

section Runs
variable [DecidableEq κ] {handle : ε → μ → σ → Option μ × σ}

/-- What every step keeps holds in every state of a run, where a step may use that its event is
one of the run. -/
theorem run_invariant {events : List (Event κ ε μ)} (inv : Network κ σ ε μ → Prop)
    {s : Network κ σ ε μ} (h : inv s)
    (hstep : ∀ s, ∀ e ∈ events, inv s → inv (step handle s e)) : inv (run handle events s) := by
  induction events generalizing s with
  | nil => exact h
  | cons e events ih =>
    apply ih
    · exact hstep s e (by simp) h
    · intro s' e' he' h'
      exact hstep s' e' (by simp [he']) h'

theorem handled_prefix (events : List (Event κ ε μ)) (s : Network κ σ ε μ) :
    s.handled <+: (run handle events s).handled := by
  apply run_invariant (fun s' => s.handled <+: s'.handled) List.prefix_rfl
  intro s' e _ h
  have hreceive : ∀ (s' : Network κ σ ε μ) node env m,
      s'.handled <+: (s'.receive handle node env m).handled := fun s' node env m =>
    List.prefix_append _ _
  cases e with
  | inject node env m => exact h.trans (hreceive s' node env m)
  | forward node env i =>
    simp only [step]
    cases s'.inFlight[i]? with
    | none => exact h
    | some m => exact h.trans (hreceive _ node env m)
  | lose i => exact h
  | duplicate i => exact h
  | deliver i => exact h

def Network.messages (s : Network κ σ ε μ) : List μ := s.inFlight ++ s.delivered

/-- An invariant of the messages, kept by every node that handles one. -/
theorem messages_invariant (P : μ → Prop) {events : List (Event κ ε μ)} {s : Network κ σ ε μ}
    (hs : ∀ m ∈ s.messages, P m)
    (hinject : ∀ node env m, .inject node env m ∈ events →
      ∀ q, ∀ m' ∈ (handle env m q).1, P m')
    (hforward : ∀ node env i, .forward node env i ∈ events →
      ∀ q, ∀ m, P m → ∀ m' ∈ (handle env m q).1, P m') :
    ∀ m ∈ (run handle events s).messages, P m := by
  -- a message is only ever moved, copied, or put in flight by the node that handled one
  apply run_invariant (fun s => ∀ m ∈ s.messages, P m) hs
  intro s e he hinv
  have hmem : ∀ m ∈ s.inFlight, P m := fun m hm => hinv m (List.mem_append_left _ hm)
  have hdel : ∀ m ∈ s.delivered, P m := fun m hm => hinv m (List.mem_append_right _ hm)
  have hat : ∀ i, ∀ m ∈ s.inFlight[i]?, P m := fun i m hm => hmem m (List.mem_of_getElem? hm)
  have herase : ∀ i, ∀ m ∈ s.inFlight.eraseIdx i, P m := fun i m hm =>
    hmem m (List.mem_of_mem_eraseIdx hm)
  cases e with
  | inject node env m =>
    intro m' hm'
    simp only [step, Network.receive, Network.messages, List.mem_append, Option.mem_toList] at hm'
    rcases hm' with (hm' | hm') | hm'
    · exact hinject node env m he _ m' hm'
    · exact hmem m' hm'
    · exact hdel m' hm'
  | forward node env i =>
    intro m' hm'
    simp only [step] at hm'
    cases hi : s.inFlight[i]? with
    | none =>
      rw [hi] at hm'
      exact hinv m' hm'
    | some m =>
      rw [hi] at hm'
      simp only [Network.receive, Network.messages, List.mem_append, Option.mem_toList] at hm'
      rcases hm' with (hm' | hm') | hm'
      · exact hforward node env i he _ m (hat i m hi) m' hm'
      · exact herase i m' hm'
      · exact hdel m' hm'
  | lose i =>
    intro m' hm'
    rcases List.mem_append.mp hm' with hm' | hm'
    · exact herase i m' hm'
    · exact hdel m' hm'
  | duplicate i =>
    intro m' hm'
    simp only [step, Network.messages, List.mem_append, Option.mem_toList] at hm'
    rcases hm' with (hm' | hm') | hm'
    · exact hat i m' hm'
    · exact hmem m' hm'
    · exact hdel m' hm'
  | deliver i =>
    intro m' hm'
    simp only [step, Network.messages, List.mem_append, Option.mem_toList] at hm'
    rcases hm' with hm' | hm' | hm'
    · exact herase i m' hm'
    · exact hdel m' hm'
    · exact hat i m' hm'

/-- Where a message comes from: an injected one, through the nodes of one or more events. The
states of these nodes leave no trace in it. -/
theorem messages_origin {out : ε → μ → Option μ} (hout : ∀ env m q, (handle env m q).1 = out env m)
    (events : List (Event κ ε μ)) (nodes : κ → σ) :
    ∀ m' ∈ (run handle events (.start nodes)).messages, ∃ node first m₀ envs env m,
      .inject node first m₀ ∈ events ∧ (∀ e ∈ envs ++ [env], e ∈ events.filterMap Event.env) ∧
        hops out envs m₀ = some m ∧ out env m = some m' := by
  apply messages_invariant
  · intro m hm
    simp [Network.messages, Network.start] at hm
  · intro node env m he q m' hm'
    refine ⟨node, env, m, [], env, m, he, ?_, rfl, by rw [← hout env m q]; exact hm'⟩
    intro e h
    rw [List.mem_singleton.mp h]
    exact List.mem_filterMap.mpr ⟨_, he, rfl⟩
  · intro node env i he q m hm m' hm'
    obtain ⟨node₀, first, m₀, envs, last, mid, hinj, henvs, hhops, hlast⟩ := hm
    refine ⟨node₀, first, m₀, envs ++ [last], env, m, hinj, ?_, ?_, by rw [← hout env m q]; exact hm'⟩
    · intro e h
      rcases List.mem_append.mp h with h | h
      · exact henvs e h
      · rw [List.mem_singleton.mp h]
        exact List.mem_filterMap.mpr ⟨_, he, rfl⟩
    · rw [hops_concat, hhops, Option.bind_some, hlast]

/-- The state of a node is the outcome of the messages it handled itself, in their order. -/
theorem nodes_run (events : List (Event κ ε μ)) (nodes : κ → σ) (node : κ) :
    (run handle events (.start nodes)).nodes node =
      ((run handle events (.start nodes)).handled.filter (·.1 = node)).foldl
        (fun q x => (handle x.2.1 x.2.2 q).2) (nodes node) := by
  apply run_invariant (fun s => s.nodes node = (s.handled.filter (·.1 = node)).foldl
    (fun q x => (handle x.2.1 x.2.2 q).2) (nodes node))
  · rfl
  · intro s e _ hs
    have hreceive : ∀ (s : Network κ σ ε μ) c env m,
        s.nodes node = (s.handled.filter (·.1 = node)).foldl
          (fun q x => (handle x.2.1 x.2.2 q).2) (nodes node) →
        (s.receive handle c env m).nodes node =
          ((s.receive handle c env m).handled.filter (·.1 = node)).foldl
            (fun q x => (handle x.2.1 x.2.2 q).2) (nodes node) := by
      intro s c env m hs
      simp only [Network.receive, List.filter_append, List.foldl_append, ← hs]
      by_cases hc : c = node
      · subst hc
        simp
      · simp [hc, Function.update_of_ne (Ne.symm hc)]
    cases e with
    | inject c env m => exact hreceive s c env m hs
    | forward c env i =>
      simp only [step]
      cases s.inFlight[i]? with
      | none => exact hs
      | some m => exact hreceive _ c env m hs
    | lose i => exact hs
    | duplicate i => exact hs
    | deliver i => exact hs

/-- An event of a network that neither loses nor copies and has a single hop. -/
def Event.Plain : Event κ ε μ → Prop
  | .inject _ _ _ => True
  | .deliver _ => True
  | _ => False

theorem handled_plain {events : List (Event κ ε μ)} (hplain : ∀ e ∈ events, e.Plain)
    (s : Network κ σ ε μ) :
    (run handle events s).handled = s.handled ++ events.filterMap Event.injected := by
  induction events generalizing s with
  | nil => simp [run]
  | cons e events ih =>
    have hrest := ih (fun e' he' => hplain e' (by simp [he'])) (step handle s e)
    cases e with
    | inject node env m =>
      exact hrest.trans (by simp [step, Network.receive, Event.injected])
    | deliver i => exact hrest
    | forward node env i => exact (hplain (.forward node env i) (by simp)).elim
    | lose i => exact (hplain (.lose i) (by simp)).elim
    | duplicate i => exact (hplain (.duplicate i) (by simp)).elim

theorem perm_eraseIdx_getElem? (l : List μ) (i : ℕ) :
    (l.eraseIdx i ++ l[i]?.toList).Perm l := by
  by_cases hi : i < l.length
  · rw [List.getElem?_eq_getElem hi, Option.toList_some]
    exact List.perm_append_comm.trans (List.getElem_cons_eraseIdx_perm hi)
  · rw [List.getElem?_eq_none (by omega), List.eraseIdx_of_length_le (by omega), Option.toList_none,
      List.append_nil]

/-- Without loss and copies every message that a node let through is delivered once or still in
flight. -/
theorem messages_perm {out : ε → μ → Option μ} (hout : ∀ env m q, (handle env m q).1 = out env m)
    {events : List (Event κ ε μ)} (hplain : ∀ e ∈ events, e.Plain) (nodes : κ → σ) :
    (run handle events (.start nodes)).messages.Perm
      ((run handle events (.start nodes)).handled.filterMap fun x => out x.2.1 x.2.2) := by
  apply run_invariant (fun s => s.messages.Perm (s.handled.filterMap fun x => out x.2.1 x.2.2))
  · exact List.Perm.nil
  · intro s e he hs
    cases e with
    | inject node env m =>
      simp only [step, Network.receive, Network.messages, hout, List.filterMap_append,
        List.append_assoc]
      refine (List.perm_append_comm.trans (hs.append_right _)).trans ?_
      cases hm : out env m <;> simp [hm]
    | deliver i =>
      refine List.Perm.trans ?_ hs
      simp only [step, Network.messages]
      calc s.inFlight.eraseIdx i ++ (s.delivered ++ s.inFlight[i]?.toList)
          |>.Perm (s.inFlight.eraseIdx i ++ (s.inFlight[i]?.toList ++ s.delivered)) :=
            List.perm_append_comm.append_left _
        _ = s.inFlight.eraseIdx i ++ s.inFlight[i]?.toList ++ s.delivered := by
            rw [List.append_assoc]
        _ |>.Perm (s.inFlight ++ s.delivered) := (perm_eraseIdx_getElem? s.inFlight i).append_right _
    | forward node env i => exact (hplain _ he).elim
    | lose i => exact (hplain _ he).elim
    | duplicate i => exact (hplain _ he).elim

end Runs

end HashCompress.MessageNetwork
