import Motif.Decimal
import Motif.Settings.Json

/-!
# Command line options

Every option has a long name. Some take a value, which is the argument after the name or follows the
name and an equals sign; the others are there or not. No option may be given twice, and there are no
arguments but options. Whatever breaks these rules, or a value that an option does not take, is a
mistake in usage, and usage mistakes are not told apart.
-/

namespace Motif.Command

/-- What a run was asked to do. -/
structure Options where
  graph : String
  /-- The pattern, by name or as a file. -/
  pattern : String
  nodes : Option Nat
  workers : Option Nat
  reuse : Option Reuse
  method : Option Method
  /-- Whether to add the reverse of every edge. -/
  symmetric : Bool
  /-- Whether only the number of matches is wanted. -/
  countOnly : Bool
  config : Option String
deriving DecidableEq, Repr

/-- The options given so far; those that have to be given may still be missing. -/
structure Given where
  graph : Option String
  pattern : Option String
  nodes : Option Nat
  workers : Option Nat
  reuse : Option Reuse
  method : Option Method
  symmetric : Bool
  countOnly : Bool
  config : Option String

namespace Given

def nothing : Given := ⟨none, none, none, none, none, none, false, false, none⟩

/-- The options, if those that have to be given were. -/
def options (g : Given) : Option Options := do
  let graph ← g.graph
  let pattern ← g.pattern
  return ⟨graph, pattern, g.nodes, g.workers, g.reuse, g.method, g.symmetric, g.countOnly, g.config⟩

/-- A value where there was none before. -/
def once {α : Type} (before : Option α) (value : Option α) : Option (Option α) :=
  match before, value with
  | none, some value => some (some value)
  | _, _ => none

/-- The name of a file, which is not empty. -/
def fileName (value : String) : Option String := if value = "" then none else some value

def number (value : String) : Option Nat := (Decimal.readWord value.toList).toOption

/-- Adds an option that takes a value. -/
def withValue (g : Given) (name value : String) : Option Given :=
  match name with
  | "graph" => return { g with graph := ← once g.graph (fileName value) }
  | "pattern" => return { g with pattern := ← once g.pattern (some value) }
  | "nodes" => return { g with nodes := ← once g.nodes (number value) }
  | "threads" => return { g with workers := ← once g.workers (number value) }
  | "mask" => return { g with reuse := ← once g.reuse (Settings.reuseNames.lookup value.toList) }
  | "strategy" => return { g with method := ← once g.method (Settings.methodNames.lookup value.toList) }
  | "config" => return { g with config := ← once g.config (fileName value) }
  | _ => none

/-- Adds an option without a value, if there is one of that name; it must not have been given. -/
def withFlag (g : Given) (name : String) : Option (Option Given) :=
  match name with
  | "symmetric" => some (if g.symmetric then none else some { g with symmetric := true })
  | "count-only" => some (if g.countOnly then none else some { g with countOnly := true })
  | _ => none

end Given

/-- The name of an option, and the value that follows it after an equals sign. -/
def splitArgument (arg : List Char) : Option (String × Option String) :=
  match arg with
  | '-' :: '-' :: rest =>
    let name := String.ofList (rest.takeWhile (· != '='))
    match rest.dropWhile (· != '=') with
    | [] => some (name, none)
    | _ :: value => some (name, some (String.ofList value))
  | _ => none

/-- Whether an argument of its own may be the value of an option: it does not look like another
option. -/
def isValue (arg : String) : Bool := arg == "-" || arg.toList.head? != some '-'

/-- Adds the options of the given arguments. The two dashes that end the options may come last. -/
def Given.readArguments (g : Given) : List String → Option Given
  | [] => some g
  | ["--"] => some g
  | arg :: args =>
    match splitArgument arg.toList with
    | none => none
    | some (name, some value) => (g.withValue name value).bind (·.readArguments args)
    | some (name, none) =>
      match g.withFlag name with
      | some flagged => flagged.bind (·.readArguments args)
      | none =>
        match args with
        | [] => none
        | value :: args =>
          if isValue value then (g.withValue name value).bind (·.readArguments args) else none

/-- The options that the arguments ask for, unless there is a mistake in usage. -/
def Options.ofArguments (args : List String) : Option Options :=
  (Given.nothing.readArguments args).bind Given.options

end Motif.Command
