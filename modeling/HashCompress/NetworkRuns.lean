import HashCompress.FrameHops

/-! Tagging CPUs and a verifier on one network: `xdp_ip_hash_func` on any number of CPUs, frames
that pass through one tagger after the other, are lost, copied or overtaken, and
`packet_handler` on what is captured at the end. -/
namespace HashCompress.NetworkRuns
open Sha256Kernel Sha256Spec KeyedHash ParsingHelpers OptionInsert XdpProgram PacketPreservation
open HashVerifier MessageNetwork FrameHops

variable {κ : Type*} [DecidableEq κ]

/-- A frame is tagged on one CPU, copied, tagged again on another, and captured while the copy is
lost. -/
def sampleEvents : List (Event Bool Helpers Frame) :=
  [.inject false headRoom sampleFrame, .duplicate 0, .forward true headRoom 1, .deliver 0, .lose 0]

/-- Without loss and copies the reports do not depend on the schedule: two runs that are given the
same frames under the same circumstances, on whichever CPUs, in whichever state and order, and that
deliver everything, make the same reports equally often. -/
theorem reports_schedule (sha256 : List UInt8 → List UInt8)
    {events events' : List (Event κ Helpers Frame)} (hplain : ∀ e ∈ events, e.Plain)
    (hplain' : ∀ e ∈ events', e.Plain) (cpus cpus' : κ → Cpu)
    (hsame : ((events.filterMap Event.injected).map Prod.snd).Perm
      ((events'.filterMap Event.injected).map Prod.snd))
    (hdone : (run handleFrame events (.start cpus)).inFlight = [])
    (hdone' : (run handleFrame events' (.start cpus')).inFlight = []) :
    ((run handleFrame events (.start cpus)).delivered.map (packetHandler sha256)).Perm
      ((run handleFrame events' (.start cpus')).delivered.map (packetHandler sha256)) := by
  have hdelivered : ∀ {events : List (Event κ Helpers Frame)} {cpus : κ → Cpu},
      (∀ e ∈ events, e.Plain) → (run handleFrame events (.start cpus)).inFlight = [] →
      (run handleFrame events (.start cpus)).delivered.Perm
        (((events.filterMap Event.injected).map Prod.snd).filterMap fun x => wire x.1 x.2) := by
    intro events cpus hplain hdone
    have hperm := messages_perm handleFrame_out hplain cpus
    rw [handled_plain hplain, Network.messages, hdone] at hperm
    rw [List.filterMap_map]
    exact hperm
  exact ((hdelivered hplain hdone).trans ((hsame.filterMap _).trans
    (hdelivered hplain' hdone').symm)).map _

def sampleSchedule : List (Event Bool Helpers Frame) :=
  [.inject false headRoom sampleFrame, .inject false headRoom optionFrame, .deliver 0, .deliver 0]

/-- The same two frames on two CPUs, each delivered at once. -/
def otherSchedule : List (Event Bool Helpers Frame) :=
  [.inject true headRoom optionFrame, .deliver 0, .inject false headRoom sampleFrame, .deliver 0]

theorem reports_schedule_sample :
    ((run handleFrame sampleSchedule (.start fun _ => Cpu.zero)).delivered.map
      (packetHandler kernelSha256)).Perm
      ((run handleFrame otherSchedule (.start fun _ => Cpu.zero)).delivered.map
        (packetHandler kernelSha256)) := by
  obtain ⟨g₁, hg₁, -⟩ := (Hopped.start sampleFrame_ipv4Header).next (by decide) works_headRoom
  obtain ⟨g₂, hg₂, -⟩ := (Hopped.start (f := optionFrame) (by decide)).next (by decide) works_headRoom
  apply reports_schedule kernelSha256
  · simp [sampleSchedule, Event.Plain]
  · simp [otherSchedule, Event.Plain]
  · exact List.Perm.swap _ _ _
  · simp [run, sampleSchedule, step, Network.receive, Network.start, handleFrame_out, hg₁, hg₂]
  · simp [run, otherSchedule, step, Network.receive, Network.start, handleFrame_out, hg₁, hg₂]

end HashCompress.NetworkRuns
