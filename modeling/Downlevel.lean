import Downlevel.Main
import Downlevel.Proofs.Compile.Erasure
import Downlevel.Proofs.Compile.Order
import Downlevel.Proofs.Compile.Reparse
import Downlevel.Proofs.Compile.Requoting
import Downlevel.Proofs.Compile.Total
import Downlevel.Proofs.Grammar.Speculation
import Downlevel.Proofs.Run.RoundTrip
import Downlevel.Proofs.SourceMap.RoundTrip
import Downlevel.Proofs.Compile.Names
import Downlevel.Proofs.Linkage.Bindings
import Downlevel.Proofs.Compile.Attributes
import Downlevel.Proofs.Compile.TagNames
import Downlevel.Proofs.Compile.Children
import Downlevel.Proofs.Compile.Members
import Downlevel.Proofs.SourceMap.Answers
import Downlevel.Proofs.Grammar.Blanks
import Downlevel.Proofs.Json.Comment
import Downlevel.Proofs.Edit.Extraction
import Downlevel.Proofs.Grammar.Partition
import Downlevel.Proofs.Compile.Location
