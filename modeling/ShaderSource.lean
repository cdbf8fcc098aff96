import ShaderSource.Proofs.Cutting
import ShaderSource.Proofs.Declared
import ShaderSource.Proofs.EditedRenaming
import ShaderSource.Proofs.Finality
import ShaderSource.Proofs.Locality
import ShaderSource.Proofs.Openings
import ShaderSource.Proofs.OrderedEdits
import ShaderSource.Proofs.OverloadFormatting
import ShaderSource.Proofs.ParseOptions
import ShaderSource.Proofs.Punctuation
import ShaderSource.Proofs.Spans
import ShaderSource.Proofs.StaleRenaming
import ShaderSource.Proofs.Unparsing
import ShaderSource.Proofs.Watching
