import TapeMachine.Machine.Basic

/-!
# Stepping by hand

A walk is a number of steps one after the other, whatever they find. Steps of a
halted machine count, although nothing runs in them.
-/
namespace TapeMachine

structure Walk where
  machine : Machine
  effects : List Effect
  events : List Event
  deriving DecidableEq

namespace Machine

def walk : (count : Nat) → Machine → Walk
  | 0, m => ⟨m, [], []⟩
  | count + 1, m =>
    let first := m.step
    let rest := walk count first.machine
    ⟨rest.machine, first.effect :: rest.effects, first.events ++ rest.events⟩

theorem length_effects_walk (count : Nat) (m : Machine) :
    (m.walk count).effects.length = count := by
  induction count generalizing m with
  | zero => rfl
  | succ n ih => simp [walk, ih]

theorem machine_walk_add (a b : Nat) (m : Machine) :
    (m.walk (a + b)).machine = ((m.walk a).machine.walk b).machine := by
  induction a generalizing m with
  | zero => simp [walk]
  | succ a ih => simp [Nat.succ_add, walk, ih]

theorem effects_walk_add (a b : Nat) (m : Machine) :
    (m.walk (a + b)).effects = (m.walk a).effects ++ ((m.walk a).machine.walk b).effects := by
  induction a generalizing m with
  | zero => simp [walk]
  | succ a ih => simp [Nat.succ_add, walk, ih]

theorem events_walk_add (a b : Nat) (m : Machine) :
    (m.walk (a + b)).events = (m.walk a).events ++ ((m.walk a).machine.walk b).events := by
  induction a generalizing m with
  | zero => simp [walk]
  | succ a ih => simp [Nat.succ_add, walk, ih]

end Machine

end TapeMachine
