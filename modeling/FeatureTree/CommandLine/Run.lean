import FeatureTree.Calculator.Pipeline
import FeatureTree.CommandLine.Help

/-!
# Run — the commands on a set of files

A command answers with a `Report`: an exit code, the text for standard output, and lines for the log.
The code is zero on success, one when the text of the file is rejected, and two on every other failure:
a wrong command line, unreadable files, unreadable settings, and broken rules of nesting.  Standard
output stays empty unless the code is zero.

Settings are read before the file.  They come from the file that the arguments name; else from the
file `settingsFile` in the working directory, if there is one, which the log mentions.
-/

namespace FeatureTree
namespace CommandLine

/-! ## Files -/

/-- What a path leads to. -/
inductive Content where
  | file (bytes : ByteArray)
  | directory
  | nothing

/-- The files that a command may look at. -/
abbrev Files : Type := String → Content

/-- The characters of a file; none for a directory and for bytes that spell no text. -/
def Files.text? (files : Files) (path : String) : Option String :=
  match files path with
  | .file bytes => String.fromUTF8? bytes
  | _ => none

def Files.isFile (files : Files) (path : String) : Bool :=
  match files path with
  | .file _ => true
  | _ => false

/-! ## Reports -/

/-- How much a line of the log matters. -/
inductive Severity where
  | info
  | error
  deriving DecidableEq, Repr

/-- What a command leaves. -/
structure Report where
  exitCode : Nat
  output : String
  log : List (Severity × String)
  deriving DecidableEq, Repr

namespace Report

def success (output : String) : Report := ⟨0, output, []⟩

def rejected (message : String) : Report := ⟨1, "", [(.error, message)]⟩

/-- Any other failure. -/
def failed : Report := ⟨2, "", []⟩

/-- The report with a line before its log. -/
def after (line : Severity × String) (r : Report) : Report := { r with log := line :: r.log }

end Report

/-! ## Commands -/

variable {K V : Type}

/-- A tree in a format, on lines of its own. -/
def Format.write [Written K] [Written V] (format : Format) (t : Tree K V) : String :=
  match format with
  | tree => t.render ++ "\n"
  | json =>
      match t.term? Tree.root with
      | some term => term.toJson.pretty ++ "\n"
      | none => ""

/-- Number of nodes below a node, and that node. -/
def nodeCount (t : Tree K V) : Nat := (t.descendants Tree.root).length + 1

/-- Counts of a text and of its two trees. -/
def statsText (text : SourceText) (flat : Calculator.SyntaxTree)
    (expression : Calculator.ExprTree) : String :=
  let lineCount := match flat.rootNode.position with
    | some position => position.stop.line
    | none => 1
  lines
    [ "chars: " ++ toString text.length,
      "lines: " ++ toString lineCount,
      "syntax nodes: " ++ toString (nodeCount flat),
      "expression nodes: " ++ toString (nodeCount expression) ]

/-- The report of an error: only a rejection tells what is wrong with the text. -/
def Report.ofError (file : String) (e : Calculator.Error) : Report :=
  if e.isRejection then .rejected (file ++ ": " ++ e.message) else .failed

def Report.ofOutcome {α : Type} (file : String) (write : α → String) :
    Outcome Calculator.Error α → Report
  | .success a => .success (write a)
  | .failure e => .ofError file e
  | .unfinished => .failed

/-- A command on the text of a file. -/
def Command.run (command : Command) (file : String) (text : SourceText) (settings : Settings) :
    Report :=
  match command with
  | read =>
      match Calculator.read text settings.limits with
      | .ok flat => .success (settings.format.write flat)
      | .error e => .ofError file (.reading e)
  | transform =>
      .ofOutcome file settings.format.write (Calculator.readAndGroup text settings.limits)
  | stats =>
      .ofOutcome file (fun (flat, expression) => statsText text flat expression)
        (Calculator.readBoth text settings.limits)

/-! ## Settings -/

/-- Where settings are looked for when the arguments name no file. -/
def settingsFile : String := "./.weft.json"

def loadSettings? (files : Files) (path : String) : Option Settings :=
  (files.text? path).bind Settings.parse?

def Invocation.runWith (i : Invocation) (files : Files) (settings : Settings) : Report :=
  match files.text? i.file with
  | none => .failed
  | some text =>
      let format := i.format.getD settings.format
      i.command.run i.file (SourceText.ofString text) { settings with format }

/-- A request with the settings of a file. -/
def Invocation.runFrom (i : Invocation) (files : Files) (path : String) : Report :=
  match loadSettings? files path with
  | none => .failed
  | some settings => i.runWith files settings

def Invocation.run (i : Invocation) (files : Files) : Report :=
  match i.config with
  | some path => i.runFrom files path
  | none =>
      if files.isFile settingsFile then
        (i.runFrom files settingsFile).after (.info, "Using config: " ++ settingsFile)
      else i.runWith files {}

/-- Paths that a request may look at. -/
def Invocation.paths (i : Invocation) : List String :=
  [i.config.getD settingsFile, i.file]

def Request.report (r : Request) (files : Files) : Report :=
  match r with
  | .run invocation => invocation.run files
  | .help topic => .success topic.text
  | .version => .success versionText
  | .usageError => .failed

def run (args : List String) (files : Files) : Report := (Request.ofArguments args).report files

/-! ## Directories -/

/-- The parts of a path; a dot alone stays where it is. -/
def pathParts (path : String) : List String :=
  (path.splitOn "/").filter fun part => part != "" && part != "."

/-- The files of a working directory, by name.  Paths from the top, and paths that end in a slash, lead
to no file of it. -/
def Files.ofList (entries : List (String × Option ByteArray)) : Files := fun path =>
  if path.startsWith "/" then .nothing
  else
    match entries.find? fun entry => pathParts entry.1 == pathParts path with
    | some (_, some bytes) => if path.endsWith "/" then .nothing else .file bytes
    | some (_, none) => .directory
    | none => .nothing

end CommandLine
end FeatureTree
