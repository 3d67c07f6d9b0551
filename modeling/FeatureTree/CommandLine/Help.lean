import FeatureTree.CommandLine.Arguments

/-!
# Help — the texts that explain the command line

The brief help of a command gives each argument one line.  Its full help also lists what the values of
an option mean.  Help for the whole program has one form only.
-/

namespace FeatureTree
namespace CommandLine

def versionText : String := "weft 0.1.0\n"

def lines (text : List String) : String := String.join (text.map (· ++ "\n"))

def programHelp : String :=
  lines
    [ "Command line front end for the weft calculator grammar",
      "",
      "Usage: weft [OPTIONS] <COMMAND>",
      "",
      "Commands:",
      "  read       Print the syntax tree of a file",
      "  transform  Print the expression tree of a file",
      "  stats      Print character, line and node counts of a file",
      "  help       Print this message or the help of the given subcommand(s)",
      "",
      "Options:",
      "  -c, --config <CONFIG>  Configuration file path",
      "  -v, --verbose          Enable verbose output",
      "  -h, --help             Print help",
      "  -V, --version          Print version" ]

def helpHelp : String :=
  lines
    [ "Print this message or the help of the given subcommand(s)",
      "",
      "Usage: weft help [COMMAND]...",
      "",
      "Arguments:",
      "  [COMMAND]...  Print help for the subcommand(s)" ]

namespace Command

def name : Command → String
  | read => "read"
  | transform => "transform"
  | stats => "stats"

def about : Command → String
  | read => "Print the syntax tree of a file"
  | transform => "Print the expression tree of a file"
  | stats => "Print character, line and node counts of a file"

def usage (command : Command) : String := "Usage: weft " ++ command.name ++ " [OPTIONS] <FILE>"

def plainHelp (command : Command) : String :=
  lines
    [ command.about,
      "",
      command.usage,
      "",
      "Arguments:",
      "  <FILE>  Input file",
      "",
      "Options:",
      "  -c, --config <CONFIG>  Configuration file path",
      "  -v, --verbose          Enable verbose output",
      "  -h, --help             Print help" ]

/-- Brief help for a command with format. -/
def briefHelp (command : Command) : String :=
  lines
    [ command.about,
      "",
      command.usage,
      "",
      "Arguments:",
      "  <FILE>  Input file",
      "",
      "Options:",
      "  -f, --format <FORMAT>  Output format [possible values: tree, json]",
      "  -c, --config <CONFIG>  Configuration file path",
      "  -v, --verbose          Enable verbose output",
      "  -h, --help             Print help (see more with '--help')" ]

/-- Full help for a command with format. -/
def fullHelp (command : Command) : String :=
  lines
    [ command.about,
      "",
      command.usage,
      "",
      "Arguments:",
      "  <FILE>",
      "          Input file",
      "",
      "Options:",
      "  -f, --format <FORMAT>",
      "          Output format",
      "",
      "          Possible values:",
      "          - tree: One-line s-expression",
      "          - json: Nested JSON objects",
      "",
      "  -c, --config <CONFIG>",
      "          Configuration file path",
      "",
      "  -v, --verbose",
      "          Enable verbose output",
      "",
      "  -h, --help",
      "          Print help (see a summary with '-h')" ]

end Command

/-- The help that a topic asks for. -/
def HelpTopic.text (topic : HelpTopic) : String :=
  match topic.subject with
  | .program => programHelp
  | .help => helpHelp
  | .command command =>
      if command.hasFormat then
        if topic.isFull then command.fullHelp else command.briefHelp
      else command.plainHelp

end CommandLine
end FeatureTree
