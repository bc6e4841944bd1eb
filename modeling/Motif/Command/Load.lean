import Motif.Command.Options
import Motif.EdgeList
import Motif.Graph.Basic
import Motif.Pattern.Json

/-!
# Loading what the options name

Settings, the pattern and the graph come from files, or, for a pattern, from its name. Files are read
through a `Disk`, a function from file names to texts, so that all of this stays a computation. What
goes wrong is a `Failure`, and its chain tells what was being done and then why it could not be done.
-/

namespace Motif.Command

/-- Why a file has no text. -/
inductive FileFault where
  | missing
  | directory
  /-- The name goes on after the name of a file. -/
  | notDirectory
  | notText
  /-- Any other reason, in the words of the system. -/
  | system (text : String)
deriving DecidableEq, Repr

namespace FileFault

def message : FileFault → String
  | missing => "No such file or directory (os error 2)"
  | directory => "Is a directory (os error 21)"
  | notDirectory => "Not a directory (os error 20)"
  | notText => "stream did not contain valid UTF-8"
  | system text => text

end FileFault

/-- The texts of files by their names. -/
abbrev Disk := String → Except FileFault (List Char)

def textOfBytes (bytes : ByteArray) : Except FileFault (List Char) :=
  match String.fromUTF8? bytes with
  | some text => return text.toList
  | none => .error .notText

/-- Why a run could not do its work. -/
inductive Failure where
  /-- A file could not be read; `role` says what for. -/
  | unreadable (role name : String) (cause : FileFault)
  | config (name : String) (cause : Json.Fault)
  | patternSize (arg : String) (cause : Decimal.Fault)
  | patternShape (arg : String) (cause : Refusal)
  | patternText (arg : String) (cause : Pattern.ReadFault)
  | edges (name : String) (cause : EdgeList.Fault)
  | refused (cause : Refusal)
deriving DecidableEq, Repr

namespace Failure

/-- What was being done, and then why it could not be done. -/
def chain : Failure → List String
  | unreadable role name cause => ["reading " ++ role ++ " " ++ name, cause.message]
  | config name cause => ["parsing config " ++ name, cause.message]
  | patternSize arg cause =>
    ["pattern size in " ++ String.ofList (Text.quote arg.toList), cause.message]
  | patternShape arg cause => ["building pattern " ++ arg, cause.message]
  | patternText arg cause => ["parsing pattern " ++ arg, cause.message]
  | edges name cause => ("parsing graph " ++ name) :: cause.chain
  | refused cause => [cause.message]

end Failure

/-- Why a run came to no result. -/
inductive Halt where
  | failed (cause : Failure)
  | broken (cause : Breach)
deriving DecidableEq, Repr

/-- Attributes a refusal to what was being done. -/
def Halt.ofStop (failure : Refusal → Failure) : Stop → Halt
  | .refused cause => .failed (failure cause)
  | .broken cause => .broken cause

def readFile (disk : Disk) (role name : String) : Except Halt (List Char) :=
  (disk name).mapError fun cause => .failed (.unreadable role name cause)

/-! ### Settings -/

/-- The settings with those that the options state in place of their own. -/
def override (o : Options) (s : Settings) : Settings :=
  let s := match o.workers with
    | some workers => s.withWorkers workers
    | none => s
  let s := match o.reuse with
    | some reuse => s.withReuse reuse
    | none => s
  match o.method with
    | some method => s.withMethod method
    | none => s

/-- The settings of a run: those of the file, if one is named, with those of the options. -/
def loadSettings (disk : Disk) (o : Options) : Except Halt Settings := do
  match o.config with
  | none => return override o .standard
  | some name =>
    let text ← readFile disk "config" name
    let settings ← (Settings.ofJson text).mapError fun fault => .failed (.config name fault)
    return override o settings

/-! ### The pattern -/

def shapeNames : List (List Char × Shape) :=
  [("path".toList, .path), ("clique".toList, .clique), ("cycle".toList, .cycle),
    ("star".toList, .star)]

/-- The family and the size that a pattern's name states: they are separated by the first colon. -/
def splitShape (arg : List Char) : Option (Shape × List Char) :=
  match arg.dropWhile (· != ':') with
  | [] => none
  | _ :: size => (shapeNames.lookup (arg.takeWhile (· != ':'))).map (·, size)

/-- The pattern of a name, or the pattern in a file. -/
def loadPattern (disk : Disk) (arg : String) : Except Halt Pattern := do
  match splitShape arg.toList with
  | some (shape, size) =>
    let k ← (Decimal.readWord size).mapError fun fault => .failed (.patternSize arg fault)
    (shape.pattern k).mapError (Halt.ofStop (.patternShape arg))
  | none =>
    let text ← readFile disk "pattern" arg
    (Pattern.ofJson text).mapError fun fault => .failed (.patternText arg fault)

/-! ### The graph -/

/-- The smallest number of vertices for the given edges, computed as a word. -/
def inferredOrder (edges : List (Nat × Nat)) : Nat :=
  (edges.map fun (u, v) => Word.add (max u v) 1).foldl max 0

/-- The graph in a file, with the given number of vertices or as many as its edges need. -/
def loadGraph (disk : Disk) (name : String) (nodes : Option Nat) : Except Halt Graph := do
  let text ← readFile disk "graph" name
  let edges ← (EdgeList.read text).mapError fun fault => .failed (.edges name fault)
  (Graph.ofEdges (nodes.getD (inferredOrder edges)) edges).mapError (Halt.ofStop .refused)

end Motif.Command
