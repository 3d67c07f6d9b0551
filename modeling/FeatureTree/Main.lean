import FeatureTree.CommandLine.Run

/-!
# Main — the program

Fetches the files that the request may look at, runs it, and hands over the report.
-/

namespace FeatureTree
namespace CommandLine

/-- What a path leads to on this machine. -/
def fetch (path : String) : IO Content := do
  try
    return .file (← IO.FS.readBinFile path)
  catch
    | .noFileOrDirectory _ _ _ => return .nothing
    | _ => return .directory

def fetchAll : List String → IO (List (String × Content))
  | [] => return []
  | path :: rest => do
      let found ← fetch path
      return (path, found) :: (← fetchAll rest)

def Files.ofFetched (fetched : List (String × Content)) : Files := fun path =>
  match fetched.find? fun entry => entry.1 == path with
  | some (_, found) => found
  | none => .nothing

def logLine : Severity × String → String
  | (.info, text) => " INFO " ++ text
  | (.error, text) => "ERROR " ++ text

end CommandLine
end FeatureTree

open FeatureTree.CommandLine in
def main (args : List String) : IO UInt32 := do
  let request := Request.ofArguments args
  let paths := match request with
    | .run invocation => invocation.paths
    | _ => []
  let report := request.report (Files.ofFetched (← fetchAll paths))
  for line in report.log do
    IO.eprintln (logLine line)
  IO.print report.output
  return report.exitCode.toUInt32
