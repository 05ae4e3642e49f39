import Seedling.Grammar.Basic

/-!
Traces: what happened to which rule at which position, in order and with the depth of nesting.
-/

namespace Seedling

inductive Action where
  /-- The body is evaluated. -/
  | enter
  /-- A final entry of the memo table answers. -/
  | replayed
  | matched (stop : Nat)
  | failed
  /-- The rule is met again while it is in progress. -/
  | reentered
  /-- The seed has grown and the body is evaluated again. -/
  | grow (stop : Nat)
deriving DecidableEq

structure TraceEntry where
  position : Nat
  rule : String
  action : Action
  depth : Nat
deriving DecidableEq

namespace TraceEntry

def describe (e : TraceEntry) : String :=
  let indent := String.join (List.replicate (e.depth - 1) "  ")
  indent ++
    match e.action with
    | .enter => s!"-> {e.rule} at {e.position}\n"
    | .replayed => s!"   {e.rule} at {e.position}: memo hit\n"
    | .matched stop => s!"<- {e.rule} matched {e.position}..{stop}\n"
    | .failed => s!"<- {e.rule} failed\n"
    | .reentered => s!"   {e.rule} at {e.position}: left recursion\n"
    | .grow stop => s!"   {e.rule} at {e.position}: seed grew to {stop}\n"

end TraceEntry

def describeTrace (entries : List TraceEntry) : String :=
  String.join (entries.map TraceEntry.describe)

def traceOfRule (rule : String) (entries : List TraceEntry) : List TraceEntry :=
  entries.filter fun e => e.rule = rule

end Seedling
