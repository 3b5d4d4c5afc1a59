import DesignCompiler.Main
import DesignCompiler.Proofs.Command.Output
import DesignCompiler.Proofs.Command.Validation
import DesignCompiler.Proofs.Emission.FirstRefusal
import DesignCompiler.Proofs.Stylesheet.Closing
import DesignCompiler.Proofs.Tree.Reordering
import DesignCompiler.Proofs.Tree.Traversal
import DesignCompiler.Proofs.Element.Renaming
import DesignCompiler.Proofs.Emission.Renaming
import DesignCompiler.Proofs.Design.RoundTrip
import DesignCompiler.Proofs.Document.Body
import DesignCompiler.Proofs.Document.Separation
import DesignCompiler.Proofs.Document.Links
import DesignCompiler.Proofs.Emission.Slots
import DesignCompiler.Proofs.Command.Lookup
import DesignCompiler.Proofs.Command.Repetition
import DesignCompiler.Proofs.Emission.Classes
import DesignCompiler.Proofs.Stylesheet.Origins
import DesignCompiler.Proofs.Command.Footprint
import DesignCompiler.Proofs.Element.Colors
import DesignCompiler.Proofs.Number.Value
import DesignCompiler.Proofs.Element.Bounds
import DesignCompiler.Proofs.Element.Blame
import DesignCompiler.Proofs.Element.Spellings
import DesignCompiler.Proofs.Emission.Normalizing
import DesignCompiler.Proofs.Command.Scaffold
import DesignCompiler.Proofs.Design.Spelling
import DesignCompiler.Proofs.Command.Naming
import DesignCompiler.Proofs.Tree.Ties
import DesignCompiler.Proofs.Tree.Outline
import DesignCompiler.Proofs.Document.Declarations
import DesignCompiler.Proofs.ClassName.Dashes
import DesignCompiler.Proofs.Markup.Escaping
import DesignCompiler.Proofs.Stylesheet.Strings
import DesignCompiler.Proofs.Stylesheet.Numerals
