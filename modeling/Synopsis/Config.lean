/-! # Settings

How help texts are read and arguments matched.
-/

namespace Synopsis

structure Config where
  /-- Long options need two hyphens; otherwise `-flag` is one option. -/
  standardLongOptions : Bool := true
  /-- `-abc` may stand for `-a -b -c`. -/
  combinedShortFlags : Bool := true
  /-- `-ovalue` may stand for `-o value`. -/
  attachedShortValues : Bool := true
  /-- `--` ends the options. -/
  autoDoubleDash : Bool := true
  /-- The name to look for in each usage line, instead of its first word. -/
  programName : Option String := none
  /-- Everything from the first positional argument on is positional. -/
  optionsFirst : Bool := false
  /-- Options that do not appear are not reported. -/
  appearedOnly : Bool := false
  /-- `[title-options]` stands for the section with that title only. -/
  namedOptionGroups : Bool := false
  /-- Case counts in section titles. -/
  caseSensitiveSections : Bool := false
  usageTitle : String := "Usage:"
  /-- What the titles of all options sections end with. -/
  optionsTitle : String := "Options:"
  deriving DecidableEq, Repr, Inhabited

/-- Whether `--` ends the options in any way. -/
def Config.honorsDoubleDash (c : Config) : Bool := c.autoDoubleDash || c.optionsFirst

end Synopsis
