import CommandLanguage.CompileError
import CommandLanguage.Generated.Declarations
import CommandLanguage.Generated.Support

/-!
# Generated files

A command tree becomes two TypeScript files. The only thing that can be wrong at this stage is the
name of the namespace.
-/

set_option autoImplicit false

namespace CommandLanguage.Generated

structure Files where
  declarations : Text
  support : Text
  deriving DecidableEq

def emit (tree : CommandTree) (options : Options) : Except CompileError Files :=
  if options.scopeName.isValidIdentifier then
    .ok ⟨declarations tree options, support tree options⟩
  else .error ⟨.semantic (.invalidNamespace options.scopeName), none⟩

end CommandLanguage.Generated
