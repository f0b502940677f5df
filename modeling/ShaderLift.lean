import ShaderLift.Main
import ShaderLift.Files.Tree
import ShaderLift.Proofs.Nodes
import ShaderLift.Proofs.Substitution
import ShaderLift.Proofs.Replacement
import ShaderLift.Proofs.Numbering
import ShaderLift.Proofs.Readers
import ShaderLift.Proofs.Spelling
import ShaderLift.Proofs.ReaderResults
import ShaderLift.Proofs.Rounding
import ShaderLift.Proofs.NumeralText
import ShaderLift.Proofs.Lexing
import ShaderLift.Proofs.TreeText
import ShaderLift.Proofs.ExprRereading
import ShaderLift.Proofs.ShaderRereading
import ShaderLift.Proofs.WellFormedness
import ShaderLift.Proofs.UniformArrays
import ShaderLift.Proofs.ArrayContents
import ShaderLift.Proofs.Halfway
import ShaderLift.Proofs.NumberCodec
import ShaderLift.Proofs.JobSteps
import ShaderLift.Proofs.JobRereading
import ShaderLift.Proofs.Interning
import ShaderLift.Proofs.Finding
import ShaderLift.Proofs.ValuePreservation
import ShaderLift.Proofs.StageAgreement
import ShaderLift.Proofs.InterningOrder
import ShaderLift.Proofs.PromotionOrder
import ShaderLift.Proofs.Identities
import ShaderLift.Proofs.FailedPromotions
import ShaderLift.Proofs.JsonNumbers
import ShaderLift.Proofs.JsonText
import ShaderLift.Proofs.JsonResults
import ShaderLift.Proofs.MetadataText
import ShaderLift.Proofs.Reloading
import ShaderLift.Proofs.Renumbering
import ShaderLift.Proofs.Resumption
import ShaderLift.Proofs.ParentLinks
import ShaderLift.Proofs.Candidates
import ShaderLift.Proofs.Attempts
import ShaderLift.Proofs.PromotionFrame
import ShaderLift.Proofs.StaleLinks
import ShaderLift.Proofs.Precedence
import ShaderLift.Proofs.Bindings
import ShaderLift.Proofs.EntryRetention
import ShaderLift.Proofs.IntegerLiterals
import ShaderLift.Proofs.ZeroCharacters
import ShaderLift.Proofs.DigestInput
import ShaderLift.Proofs.TokenPatterns
import ShaderLift.Proofs.LiteralRanges
import ShaderLift.Proofs.LongestMatch
import ShaderLift.Proofs.SourceCover
import ShaderLift.Proofs.NumberingOrder
import ShaderLift.Proofs.TokenRereading
import ShaderLift.Proofs.SearchOrder
