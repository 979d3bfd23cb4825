import CommandLanguage.Main
import CommandLanguage.Proofs.Declaration.Expression
import CommandLanguage.Proofs.Generated.Attributes
import CommandLanguage.Proofs.Generated.Members
import CommandLanguage.Proofs.Help.OwnFlags
import CommandLanguage.Proofs.Invocation.Grounds
import CommandLanguage.Proofs.Invocation.Spelling
import CommandLanguage.Proofs.Token.Style
import CommandLanguage.Proofs.Token.Progress
import CommandLanguage.Proofs.Invocation.Ambiguity
import CommandLanguage.Proofs.Invocation.HelpWord
import CommandLanguage.Proofs.Statement.Halting
import CommandLanguage.Proofs.Generated.Insets
import CommandLanguage.Proofs.Text.Name
import CommandLanguage.Proofs.Generated.Embedding
import CommandLanguage.Proofs.Generated.FileNames
import CommandLanguage.Proofs.Declaration.Appending
import CommandLanguage.Proofs.Help.Dressing
import CommandLanguage.Proofs.Help.Styling
import CommandLanguage.Proofs.Text.Recovery
import CommandLanguage.Proofs.Generated.Names
import CommandLanguage.Proofs.CompileFile
import CommandLanguage.Proofs.Help.Listing
