import Synopsis.Pattern.Basic

/-! # Written form

A pattern as one line of text. Required groups stand in parentheses, optional
ones in brackets, a group that repeats is followed by `...`, and the branches of
an alternation are separated by bars. A plain required group loses its
parentheses as an option's value and as a branch.
-/

namespace Synopsis

def Names.join (names : Names) (separator : String) : String :=
  separator.intercalate names.toList

namespace Pattern

mutual

def render : Pattern → String
  | .option ⟨names, none, _, _⟩ => names.join ","
  | .option ⟨names, some (.group .required children false), _, _⟩ =>
    names.join "," ++ "=" ++ " ".intercalate (renderAll children)
  | .option ⟨names, some value, _, _⟩ => names.join "," ++ "=" ++ render value
  | .command leaf => leaf.names.join "|"
  | .argument leaf => leaf.names.join "|"
  | .group .required children repeats =>
    "(" ++ " ".intercalate (renderAll children) ++ ")" ++ if repeats then "..." else ""
  | .group .optional children repeats =>
    "[" ++ " ".intercalate (renderAll children) ++ "]" ++ if repeats then "..." else ""
  | .either branches => " | ".intercalate (renderBranches branches)
  | .shortcut s => "[" ++ s.title ++ "options]"

def renderAll : List Pattern → List String
  | [] => []
  | p :: ps => render p :: renderAll ps

def renderBranches : List Pattern → List String
  | [] => []
  | .group .required children false :: ps =>
    " ".intercalate (renderAll children) :: renderBranches ps
  | p :: ps => render p :: renderBranches ps

end

end Pattern

end Synopsis
