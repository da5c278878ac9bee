import Firmware.Main
import Firmware.Routine.Script
import Firmware.Schema.Equality
import Firmware.Value.Equality
import Firmware.Proofs.Builtin.Generation
import Firmware.Proofs.Generator.Single
import Firmware.Proofs.Generator.Providers
import Firmware.Proofs.Graph.Countdown
import Firmware.Proofs.Graph.Reports
import Firmware.Proofs.NameTable.Clashes
import Firmware.Proofs.NameTable.Memory
import Firmware.Proofs.NameTable.Spelling
import Firmware.Proofs.Schedule.Uninterrupted
import Firmware.Proofs.Schedule.Bound
import Firmware.Proofs.Validation.Idempotence
import Firmware.Proofs.Validation.Places
import Firmware.Proofs.Validation.Limits
import Firmware.Proofs.Validation.Conforming
import Firmware.Proofs.Validation.Placement
import Firmware.Proofs.Value.Reordered
import Firmware.Proofs.Validation.Reordered
import Firmware.Proofs.Generator.Reordered
import Firmware.Proofs.Validation.Locations
import Firmware.Proofs.Generator.Accepted
import Firmware.Proofs.Validation.Defaults
import Firmware.Proofs.Schema.Associated
import Firmware.Proofs.Code.Lines
import Firmware.Proofs.Json.Reading
import Firmware.Proofs.Document.Sources
import Firmware.Proofs.Validation.Conversions
import Firmware.Proofs.Validation.Rereading
import Firmware.Proofs.Code.Literals
import Firmware.Proofs.Schema.Settled
import Firmware.Proofs.Value.Visited
import Firmware.Proofs.NameTable.Search
import Firmware.Proofs.Path
