import CommandLanguage.Help.Theme
import CommandLanguage.Invocation.Dispatch

/-!
# Help pages

A page is a list of lines. Its sections have a heading, a body and a blank line behind it, and a
section without a body is left out. The rows of a table align their descriptions by the longest
label, measured before anything is marked.
-/

set_option autoImplicit false

namespace CommandLanguage

namespace Help

structure Row where
  label : Text
  description : Text
  deriving DecidableEq

def labelWidth (rows : List Row) : Nat := (rows.map (·.label.length)).foldl max 0

/-- The line of a row; a row without a description ends with its label. -/
def Row.line (row : Row) (width : Nat) (style dim : Text → Text) : Text :=
  if row.description = [] then "  " ++ style row.label
  else
    "  " ++ style row.label ++ Text.spaces (width - row.label.length + 2) ++ dim row.description

def table (style dim : Text → Text) (rows : List Row) : List Text :=
  rows.map (·.line (labelWidth rows) style dim)

def sectionLines (theme : Theme) (title : Text) (body : List Text) : List Text :=
  if body.isEmpty then [] else theme.heading title :: body ++ [[]]

/-- The page of some lines, without blank lines at its end. -/
def page (lines : List Text) : Text := Text.unlines (lines.reverse.dropWhile (· = [])).reverse

/-- A line with a heading and a text behind it. -/
def headed (theme : Theme) (title text : Text) : Text := theme.heading title ++ " " ++ text

/-- The line with a description, unless that is empty. -/
def descriptionLine (theme : Theme) (description : Text) : List Text :=
  if description = [] then [] else [headed theme "Description:" description]

def flagRows (flags : List Flag) : List Row := flags.map fun f => ⟨f.label, f.description⟩

/-- The rows of some commands, each followed by those of the commands below it, which are indented
by one more step. At most `levels` levels are shown. -/
def commandRows (tree : CommandTree) : Nat → Nat → List PlacedCommand → List Row
  | 0, _, _ => []
  | levels + 1, depth, commands =>
    commands.flatMap fun command =>
      ⟨Text.spaces (2 * depth) ++ command.name, command.description⟩
        :: commandRows tree levels (depth + 1) (tree.below command.toCommand)

/-- The rows of all commands. No path is longer than the list of commands. -/
def allCommandRows (tree : CommandTree) : List Row :=
  commandRows tree tree.commands.length 0 tree.top

/-- What the program is for, behind its name. -/
def taglineSuffix (tagline : Text) : Text := if tagline = [] then [] else " - " ++ tagline

/-- The lines that introduce the program. -/
def identityLines (theme : Theme) : Option Identity → List Text
  | none => []
  | some app => [theme.title app.name ++ taglineSuffix app.tagline, []]

def rootPage (tree : CommandTree) (theme : Theme) : Text :=
  page
    (identityLines theme tree.app
      ++ sectionLines theme "Usage:" ["  " ++ tree.programName ++ " [flags] <command>"]
      ++ sectionLines theme "Global Flags:" (table theme.flag theme.dim (flagRows tree.globalFlags))
      ++ sectionLines theme "Commands:" (table theme.command theme.dim (allCommandRows tree))
      ++ sectionLines theme "Topics:"
        (table theme.command theme.dim (tree.topics.map fun t => ⟨t.name, t.description⟩))
      ++ ["Run '" ++ tree.programName ++ " <command> --help' for more details."])

def placeholder (name : Text) : Text := "<" ++ name ++ ">"

def usageLine (tree : CommandTree) (command : Command) : Text :=
  Text.join " "
    (tree.programName :: command.segments
      ++ (if command.isLeaf then [] else [("<command>" : Text)])
      ++ (if command.flags.isEmpty then [] else [("[flags]" : Text)])
      ++ command.args.map fun a => placeholder a.name)

def commandPage (tree : CommandTree) (theme : Theme) (command : Command) : Text :=
  page
    (headed theme "Command:" (theme.command (Text.join " " command.segments))
      :: descriptionLine theme command.description
      ++ [[]]
      ++ sectionLines theme "Usage:" ["  " ++ usageLine tree command]
      ++ sectionLines theme "Subcommands:"
        (table theme.command theme.dim
          ((tree.below command).map fun c => ⟨c.name, c.description⟩))
      ++ sectionLines theme "Arguments:"
        (table theme.argument theme.dim
          (command.args.map fun a => ⟨placeholder a.name, a.description⟩))
      ++ sectionLines theme "Flags:" (table theme.flag theme.dim (flagRows command.flags))
      ++ sectionLines theme "Examples:"
        (command.examples.map fun e => "  " ++ theme.prompt "$" ++ " " ++ e))

/-- The body of a topic under a blank line, unless it is empty. -/
def topicBody : Option Text → List Text
  | none | some [] => []
  | some body => [[], body]

def topicPage (theme : Theme) (topic : Topic) : Text :=
  page
    (headed theme "Topic:" (theme.command topic.name)
      :: descriptionLine theme topic.description
      ++ topicBody topic.body)

end Help

/-- The help text about a part of a tree; there is none about a part that the tree has not. -/
def CommandTree.help (tree : CommandTree) (theme : Theme) : HelpScope → Text
  | .root => Help.rootPage tree theme
  | .command position => (tree.commands[position]?.map (Help.commandPage tree theme)).getD []
  | .topic index => (tree.topics[index]?.map (Help.topicPage theme)).getD []

end CommandLanguage
