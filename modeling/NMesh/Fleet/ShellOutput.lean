import NMesh.Base.Runs
import NMesh.Fleet.Agent

/-! # The output of a shell

A shell's pty fills a buffer that is cut at the front, one task drains it in chunks, and the end of the pty takes the
shell out of the table, cancels the task and clears the buffer. While nothing waits and nothing is under way when the
pty ends, every byte it produced was sent or dropped for room, in order (`output_whole`). -/

namespace NMesh.Fleet.ShellOutput

open Base.BigEndian Base.Runs
open NMesh.Fleet.Agent (maxInflight)

def shellChunk : ℕ := 32768
def shellOutMax : ℕ := 512 * 1024

/-- `_Shell.sender`: none (or done), created and not yet running, or at its `await` with a chunk. -/
inductive Sender
  | none | ready | sending (chunk : Bytes)
  deriving DecidableEq

def Sender.underWay : Sender → Bytes
  | .none | .ready => []
  | .sending chunk => chunk

/-- What goes to the shell's operator: a `SHELL_OUTPUT` with its bytes, or `SHELL_CLOSE` with the status. -/
inductive Frame
  | output (chunk : Bytes) | close (status : ℤ)
  deriving DecidableEq

def Frame.bytes : Frame → Bytes
  | .output chunk => chunk
  | .close _ => []

structure State where
  out : Bytes
  sender : Sender
  /-- Whether `_shells` still holds it. -/
  held : Bool
  /-- The `SHELL_CLOSE` whose job was started. -/
  closing : Option ℤ
  frames : List Frame
  /-- What the pty produced, and of it the bytes that have left the front of the buffer, each with whether it was
  dropped there; no step reads either. -/
  produced : Bytes
  passed : List (UInt8 × Bool)
  deriving DecidableEq

def start : State := ⟨[], .none, true, none, [], [], []⟩

/-- The first `n` waiting bytes leave the buffer. -/
def State.pass (n : ℕ) (dropped : Bool) (s : State) : State :=
  { s with out := s.out.drop n, passed := s.passed ++ (s.out.take n).map fun b => (b, dropped) }

/-- The front is dropped as far as the buffer is over `room`. -/
def State.cut (room : ℕ) (s : State) : State :=
  if room < s.out.length then s.pass (s.out.length - room) true else s

def feed (chunk : Bytes) (s : State) : State :=
  { s with out := s.out ++ chunk, produced := s.produced ++ chunk }.cut shellOutMax

def wakeSender (s : State) : State := if s.sender = .none then { s with sender := .ready } else s

/-- The loop of `_drain_shell` up to its next `await`, or to its end. -/
def drain (s : State) : State :=
  if s.out ≠ [] ∧ s.held then { s.pass shellChunk false with sender := .sending (s.out.take shellChunk) }
  else { s with sender := .none }

/-- `_close_shell` with `_Shell.close`; `_spawn` drops the job when `running` others are as many as may run. -/
def closeShell (status : ℤ) (running : ℕ) (s : State) : State :=
  if s.held then
    { s with
      held := false, sender := .none, out := []
      closing := if maxInflight ≤ running then none else some (max (-1) (min status 255)) }
  else s

/-- The pty's reader gives a chunk or the end, after which it is taken off; a task runs to its next `await`. -/
inductive Action
  | chunk (data : Bytes) | eof (status : ℤ) (running : ℕ) | turn | sent | closeSent

def step (s : State) : Action → State
  | .chunk data => if s.held then wakeSender (feed data s) else s
  | .eof status running => closeShell status running s
  | .turn => if s.sender = .ready then drain s else s
  | .sent =>
    match s.sender with
    | .sending chunk => drain { s with frames := s.frames ++ [.output chunk] }
    | _ => s
  | .closeSent =>
    match s.closing with
    | some status => { s with frames := s.frames ++ [.close status], closing := none }
    | none => s

/-! ### What was produced and what was sent -/

def payloads (frames : List Frame) : Bytes := frames.flatMap Frame.bytes

/-- What left the buffer other than for room. -/
def kept (passed : List (UInt8 × Bool)) : Bytes := (passed.filter fun p => !p.2).map Prod.fst

/-- What was produced has left the buffer or waits in it, what left it other than for room was sent or is under way, and
no `SHELL_CLOSE` is sent before all of it. -/
structure Whole (s : State) : Prop where
  produced : s.produced = s.passed.map Prod.fst ++ s.out
  sent : payloads s.frames ++ s.sender.underWay = kept s.passed
  close : Each (fun before f => (∃ status, f = .close status) →
    payloads before = kept s.passed ∧ s.produced = s.passed.map Prod.fst) s.frames

/-- The pty ends only when nothing waits and no send is under way. -/
def Drained (s : State) : Action → Prop
  | .eof .. => s.out = [] ∧ s.sender.underWay = []
  | _ => True

theorem kept_pass (n : ℕ) (dropped : Bool) (s : State) :
    kept (s.pass n dropped).passed = kept s.passed ++ if dropped then [] else s.out.take n := by
  cases dropped <;> simp [kept, State.pass, List.filter_map, Function.comp_def, -List.map_take]

theorem produced_pass {s : State} (h : s.produced = s.passed.map Prod.fst ++ s.out) (n : ℕ) (dropped : Bool) :
    (s.pass n dropped).produced = (s.pass n dropped).passed.map Prod.fst ++ (s.pass n dropped).out := by
  simp [State.pass, h, Function.comp_def]

/-- What holds between two steps. -/
structure Sound (s : State) : Prop extends Whole s where
  shut : s.held = false → s.out = [] ∧ s.sender = .none
  noClose : s.held = true → s.closing = none ∧ ∀ status, .close status ∉ s.frames

variable {s : State}

theorem Sound.of_held (hheld : s.held = true) (hclosing : s.closing = none)
    (hno : ∀ status, .close status ∉ s.frames) (hp : s.produced = s.passed.map Prod.fst ++ s.out)
    (hs : payloads s.frames ++ s.sender.underWay = kept s.passed) : Sound s where
  produced := hp
  sent := hs
  close pre f post h := fun ⟨status, hf⟩ => absurd (h ▸ hf ▸ by simp) (hno status)
  shut h := absurd (hheld.symm.trans h) nofun
  noClose _ := ⟨hclosing, hno⟩

theorem State.cut_held (room : ℕ) (s : State) : (s.cut room).held = s.held := by
  unfold State.cut
  split_ifs <;> rfl

theorem sound_cut (h : Sound s) (hheld : s.held = true) (room : ℕ) : Sound (s.cut room) := by
  obtain ⟨hclosing, hno⟩ := h.noClose hheld
  unfold State.cut
  split_ifs
  · refine .of_held hheld hclosing hno (produced_pass h.produced _ _) ?_
    rw [kept_pass, if_pos rfl, List.append_nil]
    exact h.sent
  · exact h

theorem sound_feed (h : Sound s) (hheld : s.held = true) (data : Bytes) : Sound (feed data s) := by
  obtain ⟨hclosing, hno⟩ := h.noClose hheld
  refine sound_cut (s := { s with out := s.out ++ data, produced := s.produced ++ data })
    (.of_held hheld hclosing hno ?_ h.sent) hheld _
  change s.produced ++ data = _
  rw [h.produced, List.append_assoc]

theorem sound_wakeSender (h : Sound s) (hheld : s.held = true) : Sound (wakeSender s) := by
  obtain ⟨hclosing, hno⟩ := h.noClose hheld
  unfold wakeSender
  split_ifs with hnone
  · refine .of_held hheld hclosing hno h.produced ?_
    have hsent := h.sent
    rwa [hnone] at hsent
  · exact h

/-- The loop of the task, from its start or after a send. -/
theorem sound_drain (hheld : s.held = true) (hclosing : s.closing = none)
    (hno : ∀ status, .close status ∉ s.frames) (hp : s.produced = s.passed.map Prod.fst ++ s.out)
    (hs : payloads s.frames = kept s.passed) : Sound (drain s) := by
  unfold drain
  split_ifs with hout
  · refine .of_held hheld hclosing hno (produced_pass hp _ _) ?_
    exact (congrArg (· ++ s.out.take shellChunk) hs).trans (kept_pass shellChunk false s).symm
  · exact .of_held hheld hclosing hno hp ((List.append_nil _).trans hs)

/-- Once the shell is gone only its `SHELL_CLOSE` is still sent. -/
theorem sound_step_gone (h : Sound s) (hheld : s.held = false) (a : Action) : Sound (step s a) := by
  obtain ⟨hout, hsender⟩ := h.shut hheld
  cases a with
  | chunk data => simpa [step, hheld] using h
  | eof status running => simpa [step, closeShell, hheld] using h
  | turn | sent => simpa [step, hsender] using h
  | closeSent =>
    rw [step]
    cases hclosing : s.closing with
    | none => exact h
    | some status =>
      have hsent := h.sent
      rw [hsender, Sender.underWay, List.append_nil] at hsent
      refine ⟨⟨h.produced, ?_, ?_⟩, h.shut, fun hh => absurd (hheld.symm.trans hh) nofun⟩
      · simpa [payloads, Frame.bytes] using h.sent
      · refine each_append.mpr ⟨h.close, each_cons.mpr ⟨fun _ => ⟨?_, ?_⟩, each_nil⟩⟩
        · rwa [List.append_nil]
        · simpa [hout] using h.produced

theorem sound_step {a : Action} (h : Sound s) (hG : Drained s a) : Sound (step s a) := by
  cases hheld : s.held with
  | false => exact sound_step_gone h hheld a
  | true =>
    obtain ⟨hclosing, hno⟩ := h.noClose hheld
    have hsent := h.sent
    cases a with
    | chunk data =>
      rw [step, if_pos hheld]
      exact sound_wakeSender (sound_feed h hheld data) ((State.cut_held ..).trans hheld)
    | eof status running =>
      obtain ⟨hout, hunder⟩ := hG
      rw [step, closeShell, if_pos hheld]
      refine ⟨⟨hout ▸ h.produced, ?_, h.close⟩, fun _ => ⟨rfl, rfl⟩, nofun⟩
      rwa [hunder] at hsent
    | turn =>
      rw [step]
      split_ifs with hready
      · rw [hready, Sender.underWay, List.append_nil] at hsent
        exact sound_drain hheld hclosing hno h.produced hsent
      · exact h
    | sent =>
      rw [step]
      split
      · next chunk hsending =>
        rw [hsending] at hsent
        refine sound_drain hheld hclosing ?_ h.produced ?_
        · simpa using hno
        · simpa [payloads, Frame.bytes, Sender.underWay] using hsent
      · exact h
    | closeSent => simpa [step, hclosing] using h

theorem sound_start : Sound start := .of_held rfl rfl nofun rfl rfl

/-- **The output of a shell is whole and in order.** In every run in which the pty ends only when nothing waits and
no send is under way, at every moment. -/
theorem output_whole {as : List Action} (h : Guarded step Drained start as) : Whole (run step start as) :=
  (h.run_induct (fun _ _ hs hG => sound_step hs hG) sound_start).toWhole

theorem output_whole_chunk : Whole (run step start [.chunk [1], .turn, .sent, .eof 0 0, .closeSent]) :=
  output_whole ⟨trivial, trivial, trivial, ⟨rfl, rfl⟩, trivial, trivial⟩

/-- A last line that still waits when the pty ends is never sent, and the `SHELL_CLOSE` goes out without it. -/
theorem last_line_lost : ¬ ∀ as, Whole (run step start as) := by
  intro h
  have := (h [.chunk [1], .eof 0 0, .closeSent]).produced
  exact absurd this (by decide)

end NMesh.Fleet.ShellOutput
