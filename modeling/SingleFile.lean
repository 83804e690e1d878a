import SingleFile.Main
import SingleFile.Proofs.Command.Safety
import SingleFile.Proofs.Compiler.Descriptor
import SingleFile.Proofs.Compiler.Origin
import SingleFile.Proofs.Document.Enclosure
import SingleFile.Proofs.Document.Extent
import SingleFile.Proofs.Document.FirstTemplate
import SingleFile.Proofs.Document.Reading
import SingleFile.Proofs.Document.RoundTrip
import SingleFile.Proofs.Markup.Boundary
import SingleFile.Proofs.Markup.DirectiveForms
import SingleFile.Proofs.Markup.Failure
import SingleFile.Proofs.Markup.Offsets
import SingleFile.Proofs.Markup.Path
import SingleFile.Proofs.Markup.Recovery
import SingleFile.Proofs.Markup.Spelling
