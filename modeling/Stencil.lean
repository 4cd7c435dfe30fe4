import Stencil.Main
import Stencil.Proofs.CommandLine.Outcome
import Stencil.Proofs.Condition.Chaining
import Stencil.Proofs.Condition.Clauses
import Stencil.Proofs.Condition.Containment
import Stencil.Proofs.Condition.Fragmentation
import Stencil.Proofs.Condition.Legibility
import Stencil.Proofs.Evaluation.Ends
import Stencil.Proofs.Evaluation.Layering
import Stencil.Proofs.Evaluation.Lenience
import Stencil.Proofs.Evaluation.Memory
import Stencil.Proofs.Evaluation.Once
import Stencil.Proofs.Evaluation.Relevance
import Stencil.Proofs.Evaluation.Repetition
import Stencil.Proofs.Evaluation.Strictness
import Stencil.Proofs.Evaluation.Transparency
import Stencil.Proofs.Evaluation.Watching
import Stencil.Proofs.Expr.Parts
import Stencil.Proofs.Expr.Ranging
import Stencil.Proofs.Markup.Refusal
import Stencil.Proofs.Markup.Segmentation
import Stencil.Proofs.Markup.Tokenization
import Stencil.Proofs.Operator.Outcome
import Stencil.Proofs.Scope.Discipline
import Stencil.Proofs.Template.Blankness
import Stencil.Proofs.Template.Exchange
import Stencil.Proofs.Template.Leniency
import Stencil.Proofs.Template.Recognition
import Stencil.Proofs.Template.Splitting
import Stencil.Proofs.Template.Stretches
