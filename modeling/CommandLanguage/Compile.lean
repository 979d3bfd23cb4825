import CommandLanguage.CommandTree.Resolve
import CommandLanguage.Parse

/-!
# Compiling a source

A source is read, and what it declares is resolved.
-/

set_option autoImplicit false

namespace CommandLanguage

/-- The command tree of a source, or the first error in it. -/
def compile (source : Text) : Except CompileError CommandTree := parse source >>= resolve

end CommandLanguage
