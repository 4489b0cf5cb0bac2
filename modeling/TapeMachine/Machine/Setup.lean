/-!
# Machine setups

A setup fixes the number of cells and whether `.` and `,` do anything. The only
refusal is a tape without cells.
-/
namespace TapeMachine

structure Setup where
  tapeSize : Nat
  io : Bool
  deriving DecidableEq

inductive SetupError where
  | emptyTape
  deriving DecidableEq

def SetupError.message : SetupError → String
  | emptyTape => "tape size must be at least one cell"

namespace Setup

def standardSize : Nat := 8

def golfSize : Nat := 32

def standard : Setup := ⟨standardSize, true⟩

/-- The setup of golf challenges: a longer tape and neither input nor output. -/
def golf : Setup := ⟨golfSize, false⟩

def check (s : Setup) : Except SetupError Unit :=
  if s.tapeSize = 0 then .error .emptyTape else .ok ()

theorem check_eq_ok_iff {s : Setup} {u : Unit} : s.check = .ok u ↔ 0 < s.tapeSize := by
  unfold check
  split <;> simp <;> omega

theorem check_eq_error_iff {s : Setup} {e : SetupError} :
    s.check = .error e ↔ s.tapeSize = 0 := by
  unfold check
  cases e
  split <;> simp_all

end Setup

end TapeMachine
