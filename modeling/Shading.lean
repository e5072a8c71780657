import Shading.Effect.Build
import Shading.Evaluation.Evaluator
import Shading.Evaluation.Trace
import Shading.Glsl.OptionsReader
import Shading.Pool.Signature
import Shading.Proofs.Pool.WellFormed
import Shading.Proofs.Tree.Extraction
import Shading.Proofs.Pool.Operations
import Shading.Proofs.Pool.Traversal
import Shading.Proofs.Pool.Unfolding
import Shading.Proofs.Effect.Lifting
import Shading.Proofs.Effect.Meaning
import Shading.Proofs.Effect.Qualifiers
import Shading.Proofs.Effect.Sources
import Shading.Proofs.Effect.Interfaces
import Shading.Proofs.Effect.Completeness
import Shading.Proofs.Effect.Freshness
import Shading.Proofs.Effect.Rebinding
import Shading.Proofs.History.Invariant
import Shading.Proofs.History.Handles
import Shading.Proofs.History.Canonicity
import Shading.Proofs.History.Collection
import Shading.Proofs.Interpretation.Walk
import Shading.Proofs.Interpretation.Transparency
import Shading.Proofs.History.Caches
import Shading.Proofs.History.KeptRoots
import Shading.Proofs.Pool.Replacement
import Shading.Proofs.Pool.Search
import Shading.Proofs.Evaluation.Binding
import Shading.Proofs.Interpretation.Fold
import Shading.Proofs.Interpretation.Counters
import Shading.Proofs.Evaluation.Soundness
import Shading.Proofs.Glsl.Unambiguous
import Shading.Proofs.Glsl.Signs
import Shading.Proofs.Glsl.Decoding
import Shading.Proofs.Glsl.Numerals
import Shading.Proofs.History.Signatures
import Shading.Proofs.History.Lookups
