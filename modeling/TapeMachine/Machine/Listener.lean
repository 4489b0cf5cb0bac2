import TapeMachine.Machine.Event

/-!
# Listeners

A listener hears the events on some of the four channels. Its alarms count what
it hears and request cancellation of the run when their count is reached.
-/
namespace TapeMachine

/-- A request for cancellation that becomes due with the `remaining`-th event
heard on a channel from now on. A spent alarm has nothing remaining. -/
structure Alarm where
  channel : Channel
  remaining : Nat
  deriving DecidableEq

namespace Alarm

/-- How many of the events heard count for the alarm. -/
def counted (a : Alarm) (heard : List Event) : Nat :=
  heard.countP fun e => e.channel? = some a.channel

def after (a : Alarm) (heard : List Event) : Alarm :=
  { a with remaining := a.remaining - a.counted heard }

def due (a : Alarm) (heard : List Event) : Bool :=
  0 < a.remaining ∧ a.remaining ≤ a.counted heard

end Alarm

/-- Which channels are heard, and the alarms on them. -/
structure Listener where
  moves : Bool
  changes : Bool
  output : Bool
  steps : Bool
  alarms : List Alarm
  deriving DecidableEq

namespace Listener

def deaf : Listener := ⟨false, false, false, false, []⟩

/-- Hears everything and never cancels. -/
def attentive : Listener := ⟨true, true, true, true, []⟩

def isDeaf (l : Listener) : Bool :=
  !(l.moves || l.changes || l.output || l.steps)

def ofChannels (channels : List Channel) (alarms : List Alarm) : Listener where
  moves := channels.contains .moves
  changes := channels.contains .changes
  output := channels.contains .output
  steps := channels.contains .steps
  alarms := alarms

@[inline] def listensTo (l : Listener) : Channel → Bool
  | .moves => l.moves
  | .changes => l.changes
  | .output => l.output
  | .steps => l.steps

/-- Pauses are logged whatever the listener listens to. -/
@[inline] def hears (l : Listener) (e : Event) : Bool :=
  match e.channel? with
  | some channel => l.listensTo channel
  | none => true

/-- What the listener hears of an executed instruction. -/
@[inline] def heard (l : Listener) (s : Snapshot) : List Event :=
  let report := if l.steps then [.executed s] else []
  match s.effect.event? with
  | some e => if l.hears e then e :: report else report
  | none => report

/-- The listener after what it has heard, its alarms counted down. -/
def after (l : Listener) (heard : List Event) : Listener :=
  { l with alarms := l.alarms.map fun a => a.after heard }

/-- Whether an alarm becomes due with what was heard. -/
def cancels (l : Listener) (heard : List Event) : Bool :=
  l.alarms.any fun a => a.due heard

theorem heard_eq (l : Listener) (s : Snapshot) : l.heard s = s.events.filter l.hears := by
  have h : l.hears (.executed s) = l.steps := rfl
  unfold heard Snapshot.events
  cases s.effect.event? <;> cases hs : l.steps <;> simp [List.filter_cons, h, hs]

@[simp] theorem hears_attentive (e : Event) : attentive.hears e = true := by
  cases e <;> rfl

@[simp] theorem heard_attentive (s : Snapshot) : attentive.heard s = s.events := by
  simp [heard_eq]

theorem heard_of_isDeaf {l : Listener} (h : l.isDeaf = true) (s : Snapshot) : l.heard s = [] := by
  obtain ⟨moves, changes, output, steps, alarms⟩ := l
  simp only [isDeaf, Bool.not_eq_true', Bool.or_eq_false_iff] at h
  obtain ⟨⟨⟨rfl, rfl⟩, rfl⟩, rfl⟩ := h
  obtain ⟨index, i, effect, tape, output⟩ := s
  cases effect <;> rfl

@[simp] theorem after_nil (l : Listener) : l.after [] = l := by
  simp [after, Alarm.after, Alarm.counted]

@[simp] theorem cancels_nil (l : Listener) : l.cancels [] = false := by
  simp [cancels, Alarm.due, Alarm.counted]
  omega

@[simp] theorem listensTo_after (l : Listener) (events : List Event) :
    (l.after events).listensTo = l.listensTo := by
  funext channel
  cases channel <;> rfl

@[simp] theorem hears_after (l : Listener) (events : List Event) :
    (l.after events).hears = l.hears := by
  funext e
  simp [hears]

@[simp] theorem heard_after (l : Listener) (events : List Event) :
    (l.after events).heard = l.heard := by
  funext s
  simp [heard_eq]

theorem after_eq_self {l : Listener} (h : l.alarms = []) (events : List Event) :
    l.after events = l := by
  cases l
  simp_all [after]

theorem cancels_eq_false {l : Listener} (h : l.alarms = []) (events : List Event) :
    l.cancels events = false := by
  simp [cancels, h]

end Listener

end TapeMachine
