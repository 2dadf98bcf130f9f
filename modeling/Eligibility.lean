import Eligibility.Blob.Rule
import Eligibility.Catalog
import Eligibility.Evaluation.Report
import Eligibility.Json.Record
import Eligibility.Json.Rule
import Eligibility.Rule.Sharing
import Eligibility.Proofs.Grammar.Derivation
import Eligibility.Proofs.Grammar.Level
import Eligibility.Proofs.Grammar.Acceptance
import Eligibility.Proofs.Grammar.Canonical
import Eligibility.Proofs.Blob.Chain
import Eligibility.Proofs.Blob.Codec
import Eligibility.Proofs.Blob.RoundTrip
import Eligibility.Proofs.Evaluation.ShortCircuit
import Eligibility.Proofs.Blob.Economy
import Eligibility.Proofs.Blob.Envelope
import Eligibility.Proofs.Blob.Normal
import Eligibility.Proofs.Blob.Size
import Eligibility.Proofs.Evaluation.Strictness
import Eligibility.Proofs.Number.Integer
import Eligibility.Proofs.Rule.Obtainable
import Eligibility.Proofs.Evaluation.Combine
import Eligibility.Proofs.Grammar.Grouping
import Eligibility.Proofs.Json.Number
import Eligibility.Proofs.Json.Text
import Eligibility.Proofs.Json.Reader
import Eligibility.Proofs.Json.Rule
import Eligibility.Proofs.Json.Finite
import Eligibility.Proofs.Json.RoundTrip
import Eligibility.Proofs.Json.Exact
import Eligibility.Proofs.Json.Record
import Eligibility.Proofs.Number.Order
import Eligibility.Proofs.Grammar.Tiling
import Eligibility.Proofs.Evaluation.Extension
import Eligibility.Proofs.Catalog.Insertion
import Eligibility.Proofs.Evaluation.Numeric
import Eligibility.Proofs.Blob.Height
import Eligibility.Proofs.Catalog.Line
import Eligibility.Proofs.Catalog.Loading
import Eligibility.Proofs.Grammar.Fault
import Eligibility.Proofs.Grammar.Framing
import Eligibility.Proofs.Grammar.Location
import Eligibility.Proofs.Grammar.Nesting
import Eligibility.Proofs.Grammar.Relocation
import Eligibility.Proofs.Grammar.Spacing
import Eligibility.Proofs.Grammar.Keyword
import Eligibility.Proofs.Grammar.Excerpt
import Eligibility.Proofs.Number.Literal
import Eligibility.Proofs.Evaluation.Unquoted
import Eligibility.Proofs.Blob.Merging
import Eligibility.Proofs.Grammar.Outline
import Eligibility.Proofs.Rule.Quoted
import Eligibility.Proofs.Rule.Sharing
import Eligibility.Proofs.Json.Value
