import SequentProver.Digest.Content
import SequentProver.Digest.Sha256
import SequentProver.Forest.Basic
import SequentProver.Forest.Delta
import SequentProver.Forest.Edit
import SequentProver.Forest.Handle
import SequentProver.Forest.ProofTree
import SequentProver.Forest.Query
import SequentProver.Forest.Slots
import SequentProver.Forest.Step
import SequentProver.Formula.Error
import SequentProver.Formula.Expr
import SequentProver.Formula.Name
import SequentProver.Formula.Outline
import SequentProver.Formula.Parser
import SequentProver.Formula.Pred
import SequentProver.Formula.Token
import SequentProver.Formula.Ty
import SequentProver.Formula.Typing
import SequentProver.Json.Basic
import SequentProver.Json.Dependencies
import SequentProver.Json.Forest
import SequentProver.Json.Formula
import SequentProver.Json.Replay
import SequentProver.Json.Rule
import SequentProver.Json.Summary
import SequentProver.Json.Text
import SequentProver.Order.Comparison
import SequentProver.Order.SortedBy
import SequentProver.Proofs.Arena.Basic
import SequentProver.Proofs.Arena.Consistency
import SequentProver.Proofs.Arena.Edit
import SequentProver.Proofs.Arena.Layout
import SequentProver.Proofs.Arena.Mirror
import SequentProver.Proofs.Arena.Refinement
import SequentProver.Proofs.Arena.Refresh
import SequentProver.Proofs.Arena.Replays
import SequentProver.Proofs.Arena.Shape
import SequentProver.Proofs.Arena.Storage
import SequentProver.Proofs.BatchCoalescing
import SequentProver.Proofs.Batches
import SequentProver.Proofs.BuiltinRules
import SequentProver.Proofs.ByteScan
import SequentProver.Proofs.Certificate
import SequentProver.Proofs.CertificateDescent
import SequentProver.Proofs.CertificateDigest
import SequentProver.Proofs.CertificateFold
import SequentProver.Proofs.ChangeAccount
import SequentProver.Proofs.ChildSequent
import SequentProver.Proofs.ClosedTyping
import SequentProver.Proofs.Coherence
import SequentProver.Proofs.ContentLines
import SequentProver.Proofs.CopyAndGraft
import SequentProver.Proofs.DeltaCompleteness
import SequentProver.Proofs.Environment
import SequentProver.Proofs.ErrorOffsets
import SequentProver.Proofs.Fingerprints
import SequentProver.Proofs.Following
import SequentProver.Proofs.ForestMoves
import SequentProver.Proofs.Grammar
import SequentProver.Proofs.GreedyReading
import SequentProver.Proofs.Growth
import SequentProver.Proofs.HandleHistory
import SequentProver.Proofs.HypothesisSets
import SequentProver.Proofs.JsonForms
import SequentProver.Proofs.KernelSoundness
import SequentProver.Proofs.Levels
import SequentProver.Proofs.Links
import SequentProver.Proofs.Lookup
import SequentProver.Proofs.Loop
import SequentProver.Proofs.NameSyntax
import SequentProver.Proofs.OpenNodes
import SequentProver.Proofs.Origins
import SequentProver.Proofs.OwnCertificate
import SequentProver.Proofs.Proposals
import SequentProver.Proofs.Reachable
import SequentProver.Proofs.Reading
import SequentProver.Proofs.RebuildRefinement
import SequentProver.Proofs.Recording
import SequentProver.Proofs.Refusals
import SequentProver.Proofs.Regrowth
import SequentProver.Proofs.RepeatedActions
import SequentProver.Proofs.ReplayedPrefix
import SequentProver.Proofs.Respelling
import SequentProver.Proofs.RoundTrip
import SequentProver.Proofs.RuleSoundness
import SequentProver.Proofs.SelfContained
import SequentProver.Proofs.SequentEquality
import SequentProver.Proofs.SlotAccount
import SequentProver.Proofs.SlotHistory
import SequentProver.Proofs.Spelling
import SequentProver.Proofs.Standings
import SequentProver.Proofs.StructuralOrder
import SequentProver.Proofs.Substitution
import SequentProver.Proofs.Survival
import SequentProver.Proofs.TextLayout
import SequentProver.Proofs.TokenwiseReading
import SequentProver.Proofs.TreeEdit
import SequentProver.Proofs.TreeIndependence
import SequentProver.Proofs.TreeShape
import SequentProver.Proofs.Truth
import SequentProver.Proofs.Typing
import SequentProver.Proofs.WellNamed
import SequentProver.Proofs.Workbench
import SequentProver.Proofs.WrittenForm
import SequentProver.Reasoner.Basic
import SequentProver.Reasoner.Builtin
import SequentProver.Replay.Basic
import SequentProver.Replay.Config
import SequentProver.Replay.Skeleton
import SequentProver.Reuse.Dependencies
import SequentProver.Rule.Action
import SequentProver.Rule.Basic
import SequentProver.Rule.Confidence
import SequentProver.Sequent.Basic
import SequentProver.Text.Blank
import SequentProver.Text.Decimal
import SequentProver.Text.Quoted
import SequentProver.Text.Shapeless
