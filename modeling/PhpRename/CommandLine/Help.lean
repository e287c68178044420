import PhpRename.CommandLine.Parse

/-!
# Help

What the program tells about its commands and options. The short form has a line for each of them; the
long form says what each value of an option means.
-/

set_option autoImplicit false

namespace PhpRename.CommandLine

/-- What is told about an option or an argument. -/
structure Entry where
  /-- The short form, none for arguments and for options without one. -/
  short : Option String := none
  title : String
  about : String
  /-- The value of an option that is not given. -/
  fallback : Option String := none
  /-- The values, each with what it means or nothing. -/
  values : List (String × String) := []
  deriving DecidableEq, Repr

namespace Entry

/-- Whether the values have meanings to tell. -/
def tellsValues (e : Entry) : Bool := e.values.any (!·.2.isEmpty)

/-- A text of spaces. -/
def spaces (n : Nat) : String := String.ofList (List.replicate n ' ')

/-- A text filled up with spaces. -/
def fill (width : Nat) (s : String) : String := s ++ spaces (width - s.length)

/-- The remarks on an option: its value when not given, and its values. -/
def remarks (e : Entry) (long : Bool) : List String :=
  (e.fallback.map fun v => "[default: " ++ v ++ "]").toList ++
    if e.values.isEmpty || (long && e.tellsValues) then []
    else ["[possible values: " ++ String.intercalate ", " (e.values.map (·.1)) ++ "]"]

/-- The start of a line: for options, the short form or its space. -/
def lead (e : Entry) (isOption : Bool) : String :=
  if isOption then e.short.elim "      " ("  " ++ · ++ ", ") else "  "

/-- An entry in one line. -/
def shortLines (e : Entry) (isOption : Bool) (width : Nat) : List String :=
  [e.lead isOption ++ fill width e.title ++ "  " ++ String.intercalate " " (e.about :: e.remarks false)]

/-- An entry in several lines. -/
def longLines (e : Entry) (isOption : Bool) : List String :=
  let indent := spaces 10
  let width := (e.values.map (·.1.length)).foldl max 0
  let remarks := (e.remarks true).map (indent ++ ·)
  [e.lead isOption ++ e.title, indent ++ e.about] ++
    (if remarks.isEmpty then [] else indent :: remarks) ++
    if e.tellsValues then
      ["", indent ++ "Possible values:"] ++
        e.values.map fun v => indent ++ "- " ++ fill (width + 2) (v.1 ++ ":") ++ v.2
    else []

/-- The lines of entries. -/
def block (long isOption : Bool) (entries : List Entry) : List String :=
  if long then (entries.map (·.longLines isOption)).intersperse [""] |>.flatten
  else
    let width := (entries.map (·.title.length)).foldl max 0
    entries.flatMap (·.shortLines isOption width)

end Entry

/-- What is told about an option. -/
def Flag.entry : Flag → Entry
  | mode =>
    { title := "--mode <MODE>"
      about := "Which edits to apply (default: from config, else conservative)"
      values :=
        [("timid", "Apply nothing; report every possible change"),
          ("conservative", "Apply high-confidence changes; report the rest"),
          ("aggressive", "Apply every change")] }
  | format =>
    { title := "--format <FORMAT>"
      about := "Output format for the run report"
      fallback := some "text"
      values := [("text", "Human-readable summary (default)"), ("json", "Full JSON response")] }
  | logLevel =>
    { title := "--log-level <LOG_LEVEL>"
      about := "Log level for tracing output"
      fallback := some "warn"
      values := [("trace", ""), ("debug", ""), ("info", ""), ("warn", ""), ("error", "")] }
  | config =>
    { title := "--config <CONFIG>"
      about := "Configuration file (default: phpshift.toml in the current directory)" }

/-- What is told about the request for help. -/
def helpEntry (long : Bool) : Entry :=
  { short := some "-h"
    title := "--help"
    about := if long then "Print help (see a summary with '-h')" else "Print help (see more with '--help')" }

/-- What is told about the request for the version. -/
def versionEntry : Entry := { short := some "-V", title := "--version", about := "Print version" }

/-- What a command does. -/
def Command.about : Command → String
  | renameClass => "Rename a class, interface or trait"
  | renameMethod => "Rename a method of a class and its subclasses"
  | renameFile => "Move a file and rewrite include statements that name it"

/-- The arguments of a command. -/
def Command.arguments (c : Command) : List Entry :=
  (match c with
    | renameClass =>
      [{ title := "<OLD>", about := "Current class name" },
        { title := "<NEW>", about := "New class name" }]
    | renameMethod =>
      [{ title := "<CLASS>", about := "Class declaring the method" },
        { title := "<OLD>", about := "Current method name" },
        { title := "<NEW>", about := "New method name" }]
    | renameFile =>
      [{ title := "<OLD>", about := "Current path of the file" },
        { title := "<NEW>", about := "New path of the file" }]) ++
    [{ title := "<PATHS>...", about := "Files and directories to scan" }]

/-- What the help command does. -/
def helpAbout : String := "Print this message or the help of the given subcommand(s)"

/-- The lines of help on a topic. -/
def Topic.lines (topic : Topic) (long : Bool) : List String :=
  let options := Flag.all.map Flag.entry ++ [helpEntry long]
  match topic with
  | program =>
    let commands := Command.all.map (fun c => (c.name, c.about)) ++ [("help", helpAbout)]
    let width := (commands.map (·.1.length)).foldl max 0
    ["Type-aware renaming for PHP codebases", "", "Usage: phpshift [OPTIONS] <COMMAND>", "",
        "Commands:"] ++
      commands.map (fun c => "  " ++ Entry.fill width c.1 ++ "  " ++ c.2) ++
      ["", "Options:"] ++ Entry.block long true (options ++ [versionEntry])
  | command c =>
    let usage := String.intercalate " " (c.arguments.map (·.title))
    [c.about, "", "Usage: phpshift " ++ c.name ++ " [OPTIONS] " ++ usage, "", "Arguments:"] ++
      Entry.block long false c.arguments ++ ["", "Options:"] ++ Entry.block long true options
  | help =>
    [helpAbout, "", "Usage: phpshift help [COMMAND]...", "", "Arguments:",
      "  [COMMAND]...  Print help for the subcommand(s)"]

/-- The text of help on a topic. -/
def Topic.text (topic : Topic) (long : Bool) : String :=
  String.join ((topic.lines long).map (· ++ "\n"))

/-- The version of the program. -/
def versionText : String := "phpshift 0.1.0\n"

/-- What is told when the words make no command line. -/
def misuseText : String :=
  "error: the arguments make no command\n\nUsage: phpshift [OPTIONS] <COMMAND>\n\n" ++
    "For more information, try '--help'.\n"

end PhpRename.CommandLine
