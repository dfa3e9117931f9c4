import SpinBoson.Error
import SpinBoson.Walk.Container
import SpinBoson.Walk.Json

/-!
Passes over values: walks with a rule, chains, and repetition until nothing changes. A pass keeps
nothing between two runs.
-/
namespace SpinBoson

inductive Pass (α : Type) where
  /-- One step; a check returns the value that it was given, or fails. -/
  | step (name : String) (isCheck : Bool) (run : α → Except Error α)
  | chain (name : String) (passes : List (Pass α))
  /-- Repeats a pass, at most `cap` times and at least once. -/
  | fixedPoint (cap : Nat) (pass : Pass α)

/-- How a repetition ended. -/
structure Convergence where
  /-- Whether the last iteration left the value unchanged. -/
  converged : Bool
  iterations : Nat
deriving DecidableEq

/-- Repeats a step until its result equals its input; out of `left` iterations, the last stands. -/
def iterate {ε α : Type} [BEq α] (f : α → Except ε α) :
    (left done : Nat) → α → Except ε (α × Convergence)
  | 0, done, a => .ok (a, ⟨false, done⟩)
  | left + 1, done, a => do
    let next ← f a
    if next == a then return (next, ⟨true, done + 1⟩) else iterate f left (done + 1) next

namespace Pass

variable {κ α : Type}

/-- How often a repetition may run its pass. -/
def iterations (cap : Nat) : Nat :=
  max cap 1

mutual

def run [BEq α] : Pass α → α → Except Error α
  | step _ _ f, a => f a
  | chain _ passes, a => runAll passes a
  | fixedPoint cap pass, a => (·.1) <$> iterate pass.run (iterations cap) 0 a

def runAll [BEq α] : List (Pass α) → α → Except Error α
  | [], a => .ok a
  | pass :: rest, a => do runAll rest (← pass.run a)

end

/-- A run that also tells how the outermost repetition ended, if the pass is one. -/
def runWithReport [BEq α] (pass : Pass α) (a : α) : Except Error (α × Option Convergence) :=
  match pass with
  | fixedPoint cap pass => (fun (a, c) => (a, some c)) <$> iterate pass.run (iterations cap) 0 a
  | pass => (·, none) <$> pass.run a

def name : Pass α → String
  | step name _ _ => name
  | chain name _ => name
  | fixedPoint _ pass => s!"FixedPoint({pass.name})"

def kindName : Pass α → String
  | step _ true _ => "Analysis"
  | step _ false _ => "Transformation"
  | chain _ _ => "Chain"
  | fixedPoint _ _ => "FixedPoint"

def line (depth : Nat) (pass : Pass α) : String :=
  "".pushn ' ' (2 * depth) ++ s!"{pass.name} [{pass.kindName}]\n"

mutual

/-- A line for the pass and one for each that it is made of, indented by depth. -/
def describeAt (depth : Nat) : Pass α → String
  | step name isCheck f => line depth (step name isCheck f)
  | chain name passes => line depth (chain name passes) ++ describeAll (depth + 1) passes
  | fixedPoint cap pass => line depth (fixedPoint cap pass) ++ describeAt (depth + 1) pass

def describeAll (depth : Nat) : List (Pass α) → String
  | [] => ""
  | pass :: rest => describeAt depth pass ++ describeAll depth rest

end

def describe (pass : Pass α) : String :=
  describeAt 0 pass

/-- Walks with a rule that notes nothing. -/
def ofRule [Walkable κ α] (s : Strategy) (r : Rule κ (Except Error)) : Pass α :=
  step r.name false (walk s r)

/-- Walks with a rule that takes notes, each time from the same start. -/
def ofNotingRule [Walkable κ α] {σ : Type} (start : σ) (s : Strategy)
    (r : Rule κ (Noting σ)) : Pass α :=
  step r.name false fun a => ((walk s r a).run start).1

/-- Marks a step as a check. -/
def asCheck : Pass α → Pass α
  | step name _ f => step name true f
  | pass => pass

end Pass

end SpinBoson
