import Timetable.Json.Codec
import Timetable.Schedule.Search
import Timetable.Schedule.Source
import Timetable.Proofs.Clock.LocalTime
import Timetable.Proofs.Clock.Ordinary
import Timetable.Proofs.Clock.Steady
import Timetable.Proofs.Interval.Coverage
import Timetable.Proofs.Interval.NearestBoundary
import Timetable.Proofs.Interval.NextOccurrence
import Timetable.Proofs.Json.Faithful
import Timetable.Proofs.Language.Agreement
import Timetable.Proofs.Language.Beginning
import Timetable.Proofs.Language.Diagnostic
import Timetable.Proofs.Language.Divergence
import Timetable.Proofs.Language.Expectation
import Timetable.Proofs.Language.FirstProblem
import Timetable.Proofs.Language.Joining
import Timetable.Proofs.Language.LongestSentence
import Timetable.Proofs.Language.Placement
import Timetable.Proofs.Language.Progress
import Timetable.Proofs.Language.Prolongation
import Timetable.Proofs.Language.Refusal
import Timetable.Proofs.Language.RoundTrip
import Timetable.Proofs.Language.Termination
import Timetable.Proofs.Language.TimeText
import Timetable.Proofs.Language.Writing
import Timetable.Proofs.Search.AcrossChange
import Timetable.Proofs.Search.Additions
import Timetable.Proofs.Search.LeastMoment
import Timetable.Proofs.Search.NothingAllowed
import Timetable.Proofs.Search.Periodicity
import Timetable.Proofs.Text.Excerpt
import Timetable.Proofs.Text.TrieArena
import Timetable.Proofs.Text.TrieWords
