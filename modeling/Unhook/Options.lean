import Unhook.Text.Basic

/-!
# Options

What a compilation can be asked for: the name of the file that diagnostics
show, the module that lifecycle functions come from, whether types are allowed,
whether diagnostics have frames, and what script items are indented with.
-/

namespace Unhook

/-- The options of a compilation. -/
structure Options where
  /-- The name that diagnostics show. -/
  filename : Option Text := none
  /-- The module that lifecycle functions are imported from. -/
  runtimeModule : Text := "svelte"
  /-- Whether type ascriptions and declarations are read. -/
  typescript : Bool := false
  /-- Whether a diagnostic has a frame. -/
  codeFrames : Bool := true
  /-- What every line of a script item begins with. -/
  indent : Text := "  "
  deriving DecidableEq

/-- The options for a file: types are allowed if its name says so. -/
def Options.forFile (name : Text) : Options where
  filename := some name
  typescript := (Text.before? ".tsx" name).isSome || (Text.before? ".ts" name).isSome

end Unhook
