import Synopsis.Pattern.Basic

/-! # Expansion

Every pattern that results from choosing one branch of each alternation, in the
order of the branches, the leftmost choice counting most.
-/

namespace Synopsis.Pattern

mutual

def expand : Pattern → List Pattern
  | .either branches => expandEach branches
  | .group kind children repeats => (expandAll children).map (.group kind · repeats)
  | p => [p]

/-- The choices of one branch after those of the other. -/
def expandEach : List Pattern → List Pattern
  | [] => []
  | p :: ps => expand p ++ expandEach ps

/-- The choices for all children together. -/
def expandAll : List Pattern → List (List Pattern)
  | [] => [[]]
  | p :: ps => (expand p).flatMap fun q => (expandAll ps).map (q :: ·)

end

end Synopsis.Pattern
