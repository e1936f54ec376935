import SequenceChart.Generation
import SequenceChart.Report.Desk
import SequenceChart.Proofs.ProcessTrace
import SequenceChart.Proofs.NestedComposition
import SequenceChart.Proofs.Completion
import SequenceChart.Proofs.WellFormed
import SequenceChart.Proofs.ProjectionSuccess
import SequenceChart.Proofs.MessageExchange
import SequenceChart.Proofs.ExchangeTraces
import SequenceChart.Proofs.HandshakeText
import SequenceChart.Proofs.QuietProjection
import SequenceChart.Proofs.HandshakeAgreement
import SequenceChart.Proofs.SpecificationGrowth
import SequenceChart.Proofs.ModuleSuccess
import SequenceChart.Proofs.GenerationSuccess
import SequenceChart.Proofs.Landmarks
import SequenceChart.Proofs.MessageProjection
import SequenceChart.Proofs.TimerOwnership
import SequenceChart.Proofs.MemoryWrites
import SequenceChart.Proofs.CharacterPairs
import SequenceChart.Proofs.PrintedPieces
import SequenceChart.Proofs.GivenTexts
import SequenceChart.Proofs.ProjectionPieces
import SequenceChart.Proofs.TextLaws
import SequenceChart.Proofs.PieceTexts
import SequenceChart.Proofs.ModuleTexts
import SequenceChart.Proofs.ModulePairs
import SequenceChart.Proofs.FilePairs
import SequenceChart.Proofs.CommentMarks
import SequenceChart.Proofs.Ownership
import SequenceChart.Proofs.Tokens
import SequenceChart.Proofs.Renderings
import SequenceChart.Proofs.Loads
import SequenceChart.Proofs.MemoryChannels
import SequenceChart.Proofs.QualifiedNames
import SequenceChart.Proofs.AssertionModules
import SequenceChart.Proofs.Nesting
import SequenceChart.Proofs.VariableScopes
import SequenceChart.Proofs.GroupNames
import SequenceChart.Proofs.TableAgreement
import SequenceChart.Proofs.Reports
import SequenceChart.Proofs.ProjectionReports
import SequenceChart.Proofs.Relevance
import SequenceChart.Proofs.UnsupportedReports
import SequenceChart.Proofs.DeskIndependence
import SequenceChart.Proofs.Walks
import SequenceChart.Proofs.CompositionLabels
import SequenceChart.Proofs.WorldEvents
import SequenceChart.Proofs.RecordedMeetings
import SequenceChart.Proofs.IrrelevantFragments
import SequenceChart.Proofs.LineComments
import SequenceChart.Proofs.UniqueReading
import SequenceChart.Proofs.MessageFields
import SequenceChart.Proofs.StoreBehaviour
import SequenceChart.Proofs.EqualityAssertions
import SequenceChart.Proofs.LibraryMeaning
import SequenceChart.Proofs.LoopRepetitions
import SequenceChart.Proofs.TimerLimits
import SequenceChart.Proofs.UntimedReading
import SequenceChart.Proofs.Bystanders
import SequenceChart.Proofs.AppendedLifelines
import SequenceChart.Proofs.Segments
import SequenceChart.Proofs.ProjectionSegments
import SequenceChart.Proofs.Indentation
import SequenceChart.Proofs.ModuleLines
