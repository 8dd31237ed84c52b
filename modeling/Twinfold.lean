import Twinfold.CommandLine.Run
import Twinfold.Main
import Twinfold.Proofs.Detection.Buckets
import Twinfold.Proofs.Detection.Tally
import Twinfold.Proofs.Detection.VisitingOrder
import Twinfold.Proofs.Digest.Polynomial
import Twinfold.Proofs.Lists
import Twinfold.Proofs.Detection.Completeness
import Twinfold.Proofs.Coalesce.Adapters
import Twinfold.Proofs.Coalesce.Helpers
import Twinfold.Proofs.Coalesce.Calls
import Twinfold.Proofs.Coalesce.Headers
import Twinfold.Proofs.Coalesce.Outcome
import Twinfold.Proofs.Similarity.Keys
import Twinfold.Proofs.CommandLine.AllOrNothing
import Twinfold.Proofs.Declaration.LinesAlone
import Twinfold.Proofs.Coalesce.Assembly
import Twinfold.Proofs.Coalesce.Replaced
import Twinfold.Proofs.Coalesce.Success
import Twinfold.Proofs.Grouping.Partition
import Twinfold.Proofs.Similarity.Expressions
import Twinfold.Proofs.Similarity.Verdicts
import Twinfold.Proofs.Coalesce.Receivers
import Twinfold.Proofs.Coalesce.FreshNames
import Twinfold.Proofs.Similarity.FreeCallees
import Twinfold.Proofs.Similarity.Signatures
import Twinfold.Proofs.Coalesce.PassedParams
import Twinfold.Proofs.Declaration.Records
import Twinfold.Proofs.Declaration.LineBreaks
import Twinfold.Proofs.Token.WideSpaces
import Twinfold.Proofs.Token.LineNumbers
import Twinfold.Proofs.Declaration.Regions
import Twinfold.Proofs.Declaration.Standalone
import Twinfold.Proofs.Digest.Neighbourhood
import Twinfold.Proofs.Files.NormalPaths
import Twinfold.Proofs.SymbolMaps
import Twinfold.Proofs.Similarity.WhiteSpace
import Twinfold.Proofs.Coalesce.GeneratedWords
import Twinfold.Proofs.Coalesce.SlotRanges
import Twinfold.Proofs.Digest.Encoding
