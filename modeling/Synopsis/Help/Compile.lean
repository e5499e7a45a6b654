import Synopsis.Grammar.Basic
import Synopsis.Help.Declaration
import Synopsis.Help.Resolve
import Synopsis.Help.Section
import Synopsis.Help.Usage

/-! # Compiling help texts

The grammar that a help text describes.
-/

namespace Synopsis

namespace Help

/-- The declared options, and the text of the sections they come from. -/
def parseSections (config : Config) (sections : List Section) :
    Except BuildError (Registry × List SectionText) :=
  sections.foldlM (fun (registry, texts) s => do
    let group ← parseOptions config s.title s.body
    let registry ← registry.pushGroup group
    return (registry, texts ++ [⟨s.title, s.raw⟩])) ({}, [])

end Help

/-- The grammar of a help text. Options sections are looked for where the usage
section has been taken out. -/
def Grammar.compile (config : Config) (doc : String) : Except BuildError Grammar := do
  let some usage := Help.usageSection? config doc.toList | throw .missingUsage
  let rest := Text.removeFirst usage.raw.toList doc.toList
  let (registry, texts) ← Help.parseSections config (Help.optionsSections config rest)
  let lines ← Help.parseUsages config registry usage.body
  let usages ← Help.usagesOfLines config registry lines
  Grammar.build config ⟨usage.raw, texts⟩ registry usages

end Synopsis
