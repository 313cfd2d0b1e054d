import OpeningHours.Outlook
import OpeningHours.Schedule.Edit
import OpeningHours.Schedule.Rendering
import OpeningHours.Reading.Words
import OpeningHours.Proofs.NormalForm
import OpeningHours.Proofs.Countdown
import OpeningHours.Proofs.RoundTrip
import OpeningHours.Proofs.DormantHours
import OpeningHours.Proofs.Horizon
import OpeningHours.Proofs.FirstCharacters
import OpeningHours.Proofs.Matches
import OpeningHours.Proofs.Spelling
import OpeningHours.Proofs.WeeklyTexts
import OpeningHours.Proofs.WrittenHours
import OpeningHours.Proofs.Pieces
import OpeningHours.Proofs.Acceptance
import OpeningHours.Proofs.WideTexts
import OpeningHours.Proofs.Agreement
import OpeningHours.Proofs.LastRule
import OpeningHours.Proofs.RuleHours
import OpeningHours.Proofs.WrittenRules
import OpeningHours.Proofs.ExactRoundTrip
import OpeningHours.Proofs.PassingTime
import OpeningHours.Proofs.MoreHolidays
import OpeningHours.Proofs.WiderLimits
import OpeningHours.Proofs.AroundTheClock
import OpeningHours.Proofs.EditChecks
import OpeningHours.Proofs.EquivalentSchedules
import OpeningHours.Proofs.CanonicalText
import OpeningHours.Proofs.ClockRules
import OpeningHours.Proofs.Remainders
import OpeningHours.Proofs.JoinedTexts
import OpeningHours.Proofs.WordArithmetic
import OpeningHours.Proofs.BreakOrder
import OpeningHours.Proofs.BlankRuns
import OpeningHours.Proofs.Refusals
import OpeningHours.Proofs.PlainTexts
import OpeningHours.Proofs.Diagnoses
import OpeningHours.Proofs.RuleParts
import OpeningHours.Proofs.FirstParts
import OpeningHours.Proofs.CommaLists
import OpeningHours.Proofs.CommaTexts
import OpeningHours.Proofs.BreakUndo
import OpeningHours.Proofs.EditScope
