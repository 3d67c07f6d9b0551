import FeatureTree.CommandLine.Settings

/-!
# Arguments — what a command line asks for

Options of the program may stand before or after the command, options of a command only behind it.  No
option may be given twice on one side.  An option's value follows as the next argument, or in the same
one: behind an equals sign, and for a short option also directly.  After two dashes alone, everything
is taken as it is.

Arguments are taken from left to right, and the first one that asks for help or for the version, or
that cannot be accepted, decides.
-/

namespace FeatureTree
namespace CommandLine

/-- What is to be done with a file. -/
inductive Command where
  | read
  | transform
  | stats
  deriving DecidableEq, Repr

namespace Command

def ofName? (name : String) : Option Command :=
  if name = "read" then some read
  else if name = "transform" then some transform
  else if name = "stats" then some stats
  else none

def hasFormat : Command → Bool
  | stats => false
  | _ => true

end Command

/-- A complete request. -/
structure Invocation where
  command : Command
  file : String
  format : Option Format
  config : Option String
  verbose : Bool
  deriving DecidableEq, Repr

/-- What help is asked about. -/
inductive HelpSubject where
  | program
  | command (c : Command)
  /-- The command `help` itself. -/
  | help
  deriving DecidableEq, Repr

/-- Which help is asked for: about what, and whether in brief or in full. -/
structure HelpTopic where
  subject : HelpSubject
  isFull : Bool
  deriving DecidableEq, Repr

/-- What a command line asks for. -/
inductive Request where
  | run (invocation : Invocation)
  | help (topic : HelpTopic)
  | version
  | usageError
  deriving DecidableEq, Repr

/-! ## One argument -/

/-- The form of an argument. -/
inductive Token where
  /-- Two dashes alone. -/
  | rest
  /-- An option by its long name, perhaps with a value. -/
  | long (name : String) (value : Option String)
  /-- Short options in a row; the last may have its value attached. -/
  | short (letters : List Char)
  | plain (text : String)
  deriving DecidableEq, Repr

/-- The form of an argument; one dash alone is no option. -/
def Token.ofArgument (arg : String) : Token :=
  match arg.toList with
  | ['-', '-'] => .rest
  | '-' :: '-' :: name =>
      match name.span (· != '=') with
      | (name, _ :: value) => .long (String.ofList name) (some (String.ofList value))
      | (name, []) => .long (String.ofList name) none
  | '-' :: c :: letters => .short (c :: letters)
  | _ => .plain arg

/-- The value attached to a short option, if any. -/
def attached : List Char → Option String
  | [] => none
  | '=' :: value => some (String.ofList value)
  | value => some (String.ofList value)

/-! ## Options -/

/-- Options found so far on one side of the command. -/
structure Options where
  config : Option String := none
  verbose : Bool := false
  format : Option Format := none
  deriving DecidableEq, Repr

/-- The options that a place on the command line accepts. -/
structure Side where
  /-- The command on whose side the options stand. -/
  command : Option Command
  deriving DecidableEq, Repr

/-- An option, whatever it is spelled like. -/
inductive OptionName where
  | config
  | verbose
  | format
  | help
  | version
  deriving DecidableEq, Repr

namespace Side

/-- What an option for help asks about here. -/
def helpSubject (side : Side) : HelpSubject :=
  match side.command with
  | none => .program
  | some command => .command command

def accepts (side : Side) : OptionName → Bool
  | .format => side.command.any Command.hasFormat
  | .version => side.command.isNone
  | _ => true

/-- An accepted option by its long name. -/
def long? (side : Side) (name : String) : Option OptionName :=
  let found :=
    if name = "config" then some OptionName.config
    else if name = "verbose" then some .verbose
    else if name = "format" then some .format
    else if name = "help" then some .help
    else if name = "version" then some .version
    else none
  found.filter side.accepts

def short? (side : Side) (c : Char) : Option OptionName :=
  let found :=
    if c = 'c' then some OptionName.config
    else if c = 'v' then some .verbose
    else if c = 'f' then some .format
    else if c = 'h' then some .help
    else if c = 'V' then some .version
    else none
  found.filter side.accepts

end Side

def OptionName.takesValue : OptionName → Bool
  | config | format => true
  | _ => false

namespace Options

/-- Stores the value of an option, unless it has one already or the value is not acceptable. -/
def setValue? (o : Options) (name : OptionName) (value : String) : Option Options :=
  match name with
  | .config =>
      if o.config.isSome || value.isEmpty then none else some { o with config := some value }
  | .format =>
      if o.format.isSome then none
      else (Format.ofName? value).map fun format => { o with format := some format }
  | _ => none

/-- Turns an option without value on, unless it is on already. -/
def setFlag? (o : Options) : OptionName → Option Options
  | .verbose => if o.verbose then none else some { o with verbose := true }
  | _ => none

end Options

/-- What comes of one argument with options. -/
inductive Found where
  /-- The options with those of the argument. -/
  | options (o : Options)
  /-- The last option waits for its value. -/
  | needsValue (o : Options) (name : OptionName)
  /-- The whole command line is decided. -/
  | decided (r : Request)

/-- An option that asks for something at once, or turns a flag on. -/
def Found.ofFlag (side : Side) (o : Options) (isFull : Bool) (name : OptionName) : Found :=
  match name with
  | .help => .decided (.help ⟨side.helpSubject, isFull⟩)
  | .version => .decided .version
  | name =>
      match o.setFlag? name with
      | some o => .options o
      | none => .decided .usageError

def Found.ofValue (o : Options) (name : OptionName) (value : String) : Found :=
  match o.setValue? name value with
  | some o => .options o
  | none => .decided .usageError

def Found.ofLong (side : Side) (o : Options) (name : String) (value : Option String) : Found :=
  match side.long? name with
  | none => .decided .usageError
  | some name =>
      match name.takesValue, value with
      | true, none => .needsValue o name
      | true, some value => .ofValue o name value
      | false, none => .ofFlag side o true name
      | false, some _ => .decided .usageError

def Found.ofShort (side : Side) (o : Options) : List Char → Found
  | [] => .options o
  | c :: rest =>
      match side.short? c with
      | none => .decided .usageError
      | some name =>
          if name.takesValue then
            match attached rest with
            | none => .needsValue o name
            | some value => .ofValue o name value
          else
            match Found.ofFlag side o false name with
            | .options o => Found.ofShort side o rest
            | found => found

/-! ## Behind the command -/

/-- The request of a command with all its arguments.  Options behind the command win over options of
the same name before it. -/
def Request.ofCommand (command : Command) (before after : Options) (file : Option String) : Request :=
  match file with
  | none => .usageError
  | some file =>
      .run ⟨command, file, after.format, after.config <|> before.config,
        before.verbose || after.verbose⟩

/-- Takes a plain argument for the file, of which there is one with a name that is not empty. -/
def takeFile? (file : Option String) (arg : String) : Option String :=
  if file.isSome || arg.isEmpty then none else some arg

def plainArguments (command : Command) (before after : Options) :
    Option String → List String → Request
  | file, [] => .ofCommand command before after file
  | file, arg :: rest =>
      match takeFile? file arg with
      | some file => plainArguments command before after (some file) rest
      | none => .usageError

def commandArguments (command : Command) (before : Options) :
    Options → Option String → List String → Request
  | after, file, [] => .ofCommand command before after file
  | after, file, arg :: rest =>
      match Token.ofArgument arg with
      | .rest => plainArguments command before after file rest
      | .plain text =>
          match takeFile? file text with
          | some file => commandArguments command before after (some file) rest
          | none => .usageError
      | .long name value =>
          next file rest (.ofLong ⟨some command⟩ after name value)
      | .short letters => next file rest (.ofShort ⟨some command⟩ after letters)
where
  /-- Goes on after an argument with options. -/
  next (file : Option String) (rest : List String) : Found → Request
    | .options o => commandArguments command before o file rest
    | .decided r => r
    | .needsValue o name =>
        match rest with
        | [] => .usageError
        | value :: rest =>
            match Token.ofArgument value with
            | .plain value =>
                match o.setValue? name value with
                | some o => commandArguments command before o file rest
                | none => .usageError
            | _ => .usageError

/-! ## Before the command -/

/-- What the command `help` asks for; it takes the name of at most one command. -/
def helpArguments : List String → Request
  | [] => .help ⟨.program, true⟩
  | [name] =>
      match Command.ofName? name with
      | some command => .help ⟨.command command, true⟩
      | none => if name = "help" then .help ⟨.help, true⟩ else .usageError
  | _ => .usageError

/-- All arguments, with the options found so far. -/
def programArguments : Options → List String → Request
  | _, [] => .usageError
  | o, arg :: rest =>
      match Token.ofArgument arg with
      | .rest => .usageError
      | .plain text =>
          match Command.ofName? text with
          | some command => commandArguments command o {} none rest
          | none => if text = "help" then helpArguments rest else .usageError
      | .long name value => next rest (.ofLong ⟨none⟩ o name value)
      | .short letters => next rest (.ofShort ⟨none⟩ o letters)
where
  /-- Goes on after an argument with options. -/
  next (rest : List String) : Found → Request
    | .options o => programArguments o rest
    | .decided r => r
    | .needsValue o name =>
        match rest with
        | [] => .usageError
        | value :: rest =>
            match Token.ofArgument value with
            | .plain value =>
                match o.setValue? name value with
                | some o => programArguments o rest
                | none => .usageError
            | _ => .usageError

def Request.ofArguments (args : List String) : Request := programArguments {} args

end CommandLine
end FeatureTree
