import Mathlib.Logic.Function.Basic

/-!
# The priority tree (`internal/protocol/h2/stream/priority.go`)

`PriorityTree`: what the client has said of the order in which it wants its streams.
Nothing of the server acts on it. The list of the streams that depend on a stream is
deleted when it is empty, so that no list is the empty one here.
-/

namespace Celeris.H2

/-- `Priority`, and the `headerPriority` of a header block. -/
structure Priority where
  streamDependency : Nat
  /-- A byte. -/
  weight : Nat
  exclusive : Bool
deriving DecidableEq, Repr

structure PriorityTree where
  priorities : Nat → Option Priority := fun _ => none
  dependencies : Nat → List Nat := fun _ => []

namespace PriorityTree

def removeDependency (t : PriorityTree) (streamID parentID : Nat) : PriorityTree :=
  { t with
    dependencies := Function.update t.dependencies parentID
      ((t.dependencies parentID).erase streamID) }

/-- Put streams under another one. -/
def reparent (t : PriorityTree) (children : List Nat) (parentID : Nat) : Nat → Option Priority :=
  fun childID => if childID ∈ children then
    (t.priorities childID).map fun p => { p with streamDependency := parentID }
  else t.priorities childID

def setPriority (t : PriorityTree) (streamID : Nat) (priority : Priority) : PriorityTree :=
  let t := match t.priorities streamID with
    | some old => t.removeDependency streamID old.streamDependency
    | none => t
  let parentID := priority.streamDependency
  let children := t.dependencies parentID
  if priority.exclusive ∧ parentID ≠ 0 ∧ children ≠ [] then
    { priorities := Function.update (t.reparent children streamID) streamID (some priority)
      dependencies := Function.update (Function.update t.dependencies streamID children) parentID
        [streamID] }
  else
    { priorities := Function.update t.priorities streamID (some priority)
      dependencies := if parentID ≠ 0 then
        Function.update t.dependencies parentID (children ++ [streamID])
        else t.dependencies }

def removeStream (t : PriorityTree) (streamID : Nat) : PriorityTree :=
  match t.priorities streamID with
  | none => t
  | some priority =>
    let parentID := priority.streamDependency
    let t := t.removeDependency streamID parentID
    let children := t.dependencies streamID
    let known := children.filter fun childID => (t.priorities childID).isSome
    let dependencies := if parentID ≠ 0 then
      Function.update t.dependencies parentID (t.dependencies parentID ++ known) else t.dependencies
    { priorities := Function.update (t.reparent children parentID) streamID none
      dependencies := Function.update dependencies streamID [] }

def updateFromFrame (t : PriorityTree) (streamID : Nat) (priority : Priority) : PriorityTree :=
  let dependency := if streamID = priority.streamDependency then 0 else priority.streamDependency
  t.setPriority streamID { priority with streamDependency := dependency }

end PriorityTree

end Celeris.H2
