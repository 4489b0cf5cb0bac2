import TapeMachine.Machine.Setup
import TapeMachine.Machine.Listener
import TapeMachine.Machine.Store

/-!
# The machine

A machine holds a program, the store that it works on, the phase of its life
and a listener. Loading clears the tape, starting a run keeps it. A request for
cancellation is a flag that only a running machine obeys, before its next
instruction; starting and loading take it back.
-/
namespace TapeMachine

/-- Where a machine stands between loading and the end of a run. -/
inductive Phase where
  /-- Newly made or loaded, no run started. -/
  | idle
  | running
  /-- The program came to its end or the run was cancelled. -/
  | halted
  deriving DecidableEq

structure Machine where
  setup : Setup
  program : Program
  store : Store
  phase : Phase
  /-- The run was cancelled. -/
  cancelled : Bool
  /-- Somebody asked for the run to be cancelled. -/
  cancelRequested : Bool
  listener : Listener
  deriving DecidableEq

structure Stepped where
  machine : Machine
  /-- The instruction that ran, if one did. -/
  ran : Option Instruction
  effect : Effect
  events : List Event
  deriving DecidableEq

namespace Machine

/-- A machine with the empty program and a tape of zeros. -/
def fresh (setup : Setup) (size_pos : 0 < setup.tapeSize) : Machine where
  setup := setup
  program := .empty
  store := .initial (.blank setup.tapeSize size_pos) #[]
  phase := .idle
  cancelled := false
  cancelRequested := false
  listener := .deaf

def ofSetup (setup : Setup) : Except SetupError Machine :=
  match h : setup.check with
  | .ok () => .ok (fresh setup (Setup.check_eq_ok_iff.1 h))
  | .error e => .error e

/-- The machine with another listener; the channels and alarms of the old one are gone. -/
def attach (m : Machine) (listener : Listener) : Machine :=
  { m with listener }

/-- The machine with another program, an empty tape and no run started. -/
def install (m : Machine) (program : Program) : Machine :=
  { m with
    program
    store := .initial m.store.tape.clear #[]
    phase := .idle
    cancelled := false
    cancelRequested := false }

/-- Load instructions; code that is refused leaves the machine as it was. -/
def loadCode (m : Machine) (code : List Instruction) : Except LoadError Machine :=
  (Program.ofCode code).map m.install

def load (m : Machine) (source : String) : Except LoadError Machine :=
  m.loadCode (Program.instructions source)

/-- Begin a run: the pointer and the program go back to their start, the cells stay. -/
def start (m : Machine) (input : Array UInt8) : Machine :=
  { m with
    store := .initial m.store.tape.rewind input
    phase := .running
    cancelled := false
    cancelRequested := false }

def halt (m : Machine) : Machine :=
  { m with phase := .halted }

/-- The run ends here: the program counter goes to the end. -/
def abort (m : Machine) : Machine :=
  { m with
    store := { m.store with pc := m.program.size }
    phase := .halted
    cancelled := true }

/-- Stop the run in progress, if there is one. -/
def cancel (m : Machine) : Machine :=
  if m.phase = .running then m.abort else m

def requestCancel (m : Machine) : Machine :=
  { m with cancelRequested := true }

/-- A running machine obeys a request for cancellation. -/
def heed (m : Machine) : Machine :=
  if m.cancelRequested then m.cancel else m

/-- An idle machine that is stepped begins to run and drops earlier requests. -/
def wake (m : Machine) : Machine :=
  if m.phase = .idle then { m with phase := .running, cancelRequested := false } else m

def execute (m : Machine) (i : Instruction) : Stepped :=
  let index := m.store.pc
  let (effect, store) := m.store.execute m.setup.io m.program i
  let heard := m.listener.heard (store.snapshot index i effect)
  { machine :=
      { m with
        store
        cancelRequested := m.cancelRequested || m.listener.cancels heard
        listener := m.listener.after heard }
    ran := some i
    effect
    events := heard }

/-- Execute the instruction at the program counter; past the end nothing runs
and the machine halts. -/
def fetch (m : Machine) : Stepped :=
  match m.program.get? m.store.pc with
  | some i => m.wake.execute i
  | none => { machine := m.halt, ran := none, effect := .halted, events := [] }

/-- One step. A running machine that was asked to cancel comes to its end first. -/
def step (m : Machine) : Stepped :=
  m.heed.fetch

variable (m : Machine)

@[simp] theorem setup_start (input : Array UInt8) : (m.start input).setup = m.setup := rfl

@[simp] theorem program_start (input : Array UInt8) : (m.start input).program = m.program := rfl

@[simp] theorem listener_start (input : Array UInt8) : (m.start input).listener = m.listener := rfl

@[simp] theorem setup_heed : m.heed.setup = m.setup := by
  unfold heed cancel
  split
  · split <;> rfl
  · rfl

@[simp] theorem program_heed : m.heed.program = m.program := by
  unfold heed cancel
  split
  · split <;> rfl
  · rfl

theorem heed_of_not_requested (h : m.cancelRequested = false) : m.heed = m := by
  simp [heed, h]

theorem wake_of_running (h : m.phase = .running) : m.wake = m := by
  simp [wake, h]

theorem step_of_running {i : Instruction} (hp : m.phase = .running)
    (hc : m.cancelRequested = false) (hi : m.program.get? m.store.pc = some i) :
    m.step = m.execute i := by
  rw [step, heed_of_not_requested m hc, fetch, hi]
  exact congrArg (execute · i) (wake_of_running m hp)

theorem ran_step_eq_none_iff : m.step.ran = none ↔ m.step.effect = .halted := by
  unfold step fetch
  split
  · exact ⟨fun h => by simp [execute] at h, fun h => (Store.execute_ne_halted _ _ _ _ h).elim⟩
  · simp

end Machine

end TapeMachine
