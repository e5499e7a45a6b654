import Synopsis.Config
import Synopsis.Help.Element
import Synopsis.Text.Columns

/-! # Usage lines

Each line of the usage section is one usage. A line that is indented deeper than
the line that began a usage continues it.
-/

namespace Synopsis.Help

/-- Adds a line to the usages read so far, the last one first, each with its
indentation. -/
def addLine (usages : List (Nat × List Char)) (line : List Char) : List (Nat × List Char) :=
  let indent := Text.indentation line
  match usages with
  | (first, text) :: rest =>
    if first < indent then (first, text ++ ' ' :: Text.trim line) :: rest
    else (indent, line) :: usages
  | [] => [(indent, line)]

/-- The usages with their continuation lines. -/
def usageLines (body : List Char) : List (List Char) :=
  let lines := (Text.lines body).filter (!Text.isAllBlank ·)
  (lines.foldl addLine []).reverse.map (·.2)

/-- The words behind the name of the program, which is the first word or as set. -/
def usageWords (config : Config) (line : List Char) : Except BuildError (List Lexeme) :=
  match config.programName with
  | some name =>
    match Text.cutAt? name.toList line with
    | some (_, rest) => .ok (lex rest)
    | none => .error (.programNameMissing name (String.ofList line))
  | none => .ok ((lex line).drop 1)

/-- The patterns of the usage section, as written. -/
def parseUsages (config : Config) (registry : Registry) (body : List Char) :
    Except BuildError (List Pattern) :=
  (usageLines body).mapM fun line => do
    return .required (← parseLine config registry line (← usageWords config line))

end Synopsis.Help
