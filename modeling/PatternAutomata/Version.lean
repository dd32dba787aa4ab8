/-
The version of the library.

A version is a list of items. The first three are the release and are joined by dots;
any others mark a stage before or after it and follow without a mark between them.
-/

set_option autoImplicit false

namespace PatternAutomata

/-- One item of a version. -/
inductive VersionItem where
  | number (n : Int)
  | tag (s : String)

/-- How an item is written. -/
def VersionItem.text : VersionItem → String
  | number n => toString n
  | tag s => s

/-- A version. -/
structure Version where
  items : List VersionItem

namespace Version

/-- The version of this library. -/
def current : Version := ⟨[.number 0, .number 1, .number 0]⟩

/-- The version as a text: the first two items, or the first three if the build number
is wanted, and then the items that mark the stage if these are wanted too. -/
def text (v : Version) (build stage : Bool) : String :=
  let release := ".".intercalate ((v.items.take (if build then 3 else 2)).map (·.text))
  if build && stage then release ++ String.join ((v.items.drop 3).map (·.text)) else release

end Version

end PatternAutomata
