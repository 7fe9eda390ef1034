import Lightshow.Bridge.Body
import Lightshow.Bridge.Gateway
import Lightshow.Bridge.Response
import Lightshow.Bridge.Url
import Lightshow.Calendar.Basic
import Lightshow.Calendar.Reading
import Lightshow.Calendar.Zone
import Lightshow.Decimal.Reading
import Lightshow.Decimal.Shortest
import Lightshow.Device.Basic
import Lightshow.Device.Reference
import Lightshow.Device.Roster
import Lightshow.Document.Basic
import Lightshow.Document.Json
import Lightshow.Document.Record
import Lightshow.Document.Scalar
import Lightshow.Document.Value
import Lightshow.Document.Yaml
import Lightshow.Duration
import Lightshow.Gateway.Error
import Lightshow.Program.Fault
import Lightshow.Program.Loop
import Lightshow.Program.Pause
import Lightshow.Program.Reading
import Lightshow.Program.Step
import Lightshow.ReadError
import Lightshow.Run.Activity
import Lightshow.Run.Bound
import Lightshow.Run.Event
import Lightshow.Run.Machine
import Lightshow.Run.Queue
import Lightshow.Run.Random
import Lightshow.Run.Result
import Lightshow.Run.World
import Lightshow.Settings.Basic
import Lightshow.Settings.Reading
import Lightshow.Settings.Variables
import Lightshow.State.Basic
import Lightshow.State.Brightness
import Lightshow.State.Reading
import Lightshow.State.Writing
import Lightshow.Text.Blank
import Lightshow.Text.Numeral
import Lightshow.Yaml.Cursor
import Lightshow.Yaml.Node
import Lightshow.Yaml.Scalars
import Lightshow.Yaml.Token
import Lightshow.Yaml.TokenStream
import Lightshow.Proofs.Run.Journal
import Lightshow.Proofs.Run.Move
import Lightshow.Proofs.Language.Basic
import Lightshow.Proofs.Language.Step
import Lightshow.Proofs.Language.Live
import Lightshow.Proofs.Run.Writes
import Lightshow.Proofs.Language.Run
import Lightshow.Proofs.Run.Plain
import Lightshow.Proofs.Run.Operation
import Lightshow.Proofs.Run.Answer
import Lightshow.Proofs.Run.Pausing
import Lightshow.Proofs.Run.Status
import Lightshow.Proofs.Run.Account
import Lightshow.Proofs.Run.Halt
import Lightshow.Proofs.Run.Uses
import Lightshow.Proofs.Validity.Run
import Lightshow.Proofs.Run.Owing
import Lightshow.Proofs.Run.Prompt
import Lightshow.Proofs.Time.Cancelled
import Lightshow.Proofs.Time.LastCalls
import Lightshow.Proofs.Run.Unread
import Lightshow.Proofs.Time.Timetable
import Lightshow.Proofs.Written.Document
import Lightshow.Proofs.Written.Text
import Lightshow.Proofs.Written.Values
import Lightshow.Proofs.Written.Program
import Lightshow.Proofs.Language.Counted
import Lightshow.Proofs.Run.Errands
import Lightshow.Proofs.Time.Verdict
import Lightshow.Proofs.Time.Schedule
import Lightshow.Proofs.Written.Paths
import Lightshow.Proofs.Reading.Steps
import Lightshow.Proofs.Run.Unmapped
import Lightshow.Proofs.Time.Delay
import Lightshow.Proofs.Reading.Settings
import Lightshow.Proofs.Run.Bounds
import Lightshow.Proofs.Time.Iterations
import Lightshow.Proofs.Time.Endings
import Lightshow.Proofs.Time.Acknowledged
import Lightshow.Proofs.Time.Agenda
import Lightshow.Proofs.Time.Scopes
import Lightshow.Proofs.Text.Numeral
import Lightshow.Proofs.Device.Reference
import Lightshow.Proofs.Device.Groups
import Lightshow.Proofs.Device.Roster
import Lightshow.Proofs.State.Brightness
import Lightshow.Proofs.State.JsonValue
import Lightshow.Proofs.Validity.Faults
import Lightshow.Proofs.Run.Reports
import Lightshow.Proofs.Device.Listed
import Lightshow.Proofs.Bridge.Response
import Lightshow.Proofs.Bridge.Body
import Lightshow.Proofs.Settings.Variables
import Lightshow.Proofs.Written.Calendar
import Lightshow.Proofs.Bridge.Url
import Lightshow.Proofs.Settings.Entries
import Lightshow.Proofs.Settings.Texts
