import JossLang.Main
import JossLang.Proofs.StepIdentity
import JossLang.Proofs.EnvironmentRuns
import JossLang.Proofs.Canonical
import JossLang.Proofs.Rereading
import JossLang.Proofs.LineRereading
import JossLang.Proofs.Layout
import JossLang.Proofs.Spellings
import JossLang.Proofs.ReadingImage
import JossLang.Proofs.LineImage
import JossLang.Proofs.RoundTrip
import JossLang.Proofs.Alike
import JossLang.Proofs.Comparison
import JossLang.Proofs.EvaluationAgreement
import JossLang.Proofs.ExecutionAgreement
import JossLang.Proofs.ReadingAgreement
import JossLang.Proofs.ProgramsAlike
import JossLang.Proofs.LineRuns
import JossLang.Proofs.SessionAgreement
import JossLang.Proofs.ExpectedErrors
import JossLang.Proofs.DoLines
import JossLang.Proofs.PartRuns
import JossLang.Proofs.NumberedLines
import JossLang.Proofs.SpacedLines
import JossLang.Proofs.Hygiene
import JossLang.Proofs.DeferredRuns
import JossLang.Proofs.SelfAssignment
import JossLang.Proofs.Lockstep
import JossLang.Proofs.LockstepRuns
import JossLang.Proofs.SparseArrays
import JossLang.Proofs.CallStack
import JossLang.Proofs.Observers
import JossLang.Proofs.StackDiscipline
import JossLang.Proofs.StackTraces
import JossLang.Proofs.FailingSteps
import JossLang.Proofs.Invariants
import JossLang.Proofs.AssignmentFrame
import JossLang.Proofs.ReadOnlyEvaluation
import JossLang.Proofs.ErrorContainment
import JossLang.Proofs.ErrorReports
import JossLang.Proofs.ErrorEntries
import JossLang.Proofs.TracebackStart
import JossLang.Proofs.NotedSessions
import JossLang.Proofs.OutputRecord
import JossLang.Proofs.Boundaries
import JossLang.Proofs.Chronicle
import JossLang.Proofs.ToldSessions
import JossLang.Proofs.LogIntegrity
import JossLang.Proofs.CommandEvents
import JossLang.Proofs.OneLine
import JossLang.Proofs.Provenance
import JossLang.Proofs.Messages
import JossLang.Proofs.UnbrokenStates
import JossLang.Proofs.UnbrokenRuns
import JossLang.Proofs.Recordings
import JossLang.Proofs.Registrations
import JossLang.Proofs.FunctionTable
import JossLang.Proofs.LoopControl
import JossLang.Proofs.ErrorOutput
import JossLang.Proofs.Drivers
import JossLang.Proofs.OperatorTrees
import JossLang.Proofs.Phrases
import JossLang.Proofs.Takings
import JossLang.Proofs.Precedence
import JossLang.Proofs.Slices
import JossLang.Proofs.FirstPeriod
import JossLang.Proofs.Doubles
import JossLang.Proofs.DoubleSums
import JossLang.Proofs.Progressions
import JossLang.Proofs.IntegerRanges
import JossLang.Proofs.ReadingEnds
import JossLang.Proofs.CanonicalNames
import JossLang.Proofs.NearestDoubles
import JossLang.Proofs.WrittenNumbers
import JossLang.Proofs.PaddedTranscripts
import JossLang.Proofs.IteratedArguments
import JossLang.Proofs.RefusedRegistrations
import JossLang.Proofs.RuleSchedules
import JossLang.Proofs.Outlines
import JossLang.Proofs.Places
