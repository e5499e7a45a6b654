import Synopsis.Text.Quoted

/-! # Errors

Why a grammar cannot be built, and why arguments do not match it.
-/

namespace Synopsis

inductive BuildError where
  | missingUsage
  | duplicateOption (name : String)
  /-- Two declarations of an option disagree on its arity. -/
  | inconsistentArity (option declared found : String)
  | malformedOption (declaration : String)
  | argumentAfterEllipsis (declaration : String)
  | unbalancedBrackets (line : String)
  /-- A bar or an ellipsis has nothing to attach to. -/
  | unexpectedToken (token line : String)
  | programNameMissing (name line : String)
  /-- A shortcut names a section that does not exist. -/
  | unknownOptionsSection (shortcut : String)
  | unsupportedVersion (version : String)
  | invalidRecord
  deriving DecidableEq, Repr

def BuildError.message : BuildError → String
  | .missingUsage => "\"usage:\" section not found"
  | .duplicateOption name => name ++ " announced more than once in options"
  | .inconsistentArity option declared found =>
    option ++ " announced differently (" ++ declared ++ " vs " ++ found ++ ")"
  | .malformedOption declaration =>
    "option declaration does not start with \"-\": " ++ declaration
  | .argumentAfterEllipsis declaration =>
    "argument after \"...\" in option declaration: " ++ declaration
  | .unbalancedBrackets line => "brackets not in pair in usage: " ++ line
  | .unexpectedToken token line => "unexpected " ++ Text.quote token ++ " in usage: " ++ line
  | .programNameMissing name line =>
    "program name " ++ Text.quote name ++ " not found in usage line: " ++ line
  | .unknownOptionsSection shortcut =>
    "no options section matches shortcut [" ++ shortcut ++ "]"
  | .unsupportedVersion version => "unsupported grammar record version: " ++ version
  | .invalidRecord => "invalid grammar record"

inductive MatchError where
  | unknownOption (option token : String)
  | ambiguousPrefix (stem : String) (candidates : List String)
  /-- A flag was given a value. -/
  | unexpectedValue (option : List String) (hit : String)
  /-- An option did not get the values it needs; `hit` was found in their place. -/
  | missingValue (option : List String) (hit : Option String)
  /-- The values that an option needs would have to stand behind `--`. -/
  | missingValueAtDashes (option : List String)
  | noUsageMatched
  deriving DecidableEq, Repr

def MatchError.message : MatchError → String
  | .unknownOption option token =>
    "unknown option: " ++ option ++ if option = token then "" else " in " ++ token
  | .ambiguousPrefix stem candidates =>
    stem ++ " is not a unique prefix: " ++ ", ".intercalate candidates ++ "?"
  | .unexpectedValue option hit =>
    "/".intercalate option ++ " must not have argument(s), got " ++ Text.quote hit
  | .missingValue option hit =>
    "/".intercalate option ++ " requires argument(s)"
      ++ (hit.elim "" fun h => ", got " ++ Text.quote h)
  | .missingValueAtDashes option =>
    "/".intercalate option ++ " requires argument(s) but hit \"--\""
  | .noUsageMatched => "no usage pattern matched the given arguments"

/-- Found before any usage was tried. -/
def MatchError.isTokenizerError : MatchError → Bool
  | .unknownOption _ _ | .ambiguousPrefix _ _ => true
  | _ => false

end Synopsis
