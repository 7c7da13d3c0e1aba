import RoastTelemetry.Document.Curve
import RoastTelemetry.Document.Packed
import RoastTelemetry.Document.Roast
import RoastTelemetry.Document.Settings
import RoastTelemetry.History.Handles
import RoastTelemetry.Report
import RoastTelemetry.Proofs.Binary.Codes
import RoastTelemetry.Proofs.Binary.Nearest
import RoastTelemetry.Proofs.Delta.Batches
import RoastTelemetry.Proofs.History.Contents
import RoastTelemetry.Proofs.Binary.Value
import RoastTelemetry.Proofs.Delta.Levels
import RoastTelemetry.Proofs.Delta.Channels
import RoastTelemetry.Proofs.Delta.Drift
import RoastTelemetry.Proofs.Delta.Fault
import RoastTelemetry.Proofs.Delta.Presence
import RoastTelemetry.Proofs.Delta.Alike
import RoastTelemetry.Proofs.Delta.Offsets
import RoastTelemetry.Proofs.Delta.Resume
import RoastTelemetry.Proofs.Delta.Generations
import RoastTelemetry.Proofs.Binary.Ordered
import RoastTelemetry.Proofs.Delta.Times
import RoastTelemetry.Proofs.Binary.Finite
import RoastTelemetry.Proofs.Rise.Windows
import RoastTelemetry.Proofs.Rise.Smoothing
import RoastTelemetry.Proofs.Rise.Pipeline
import RoastTelemetry.Proofs.Rise.Band
import RoastTelemetry.Proofs.Roast.Landmarks
import RoastTelemetry.Proofs.Roast.Phases
import RoastTelemetry.Proofs.Thinning.Positions
import RoastTelemetry.Proofs.Json.Numbers
import RoastTelemetry.Proofs.Json.Strings
import RoastTelemetry.Proofs.Json.Tokens
import RoastTelemetry.Proofs.Json.Records
import RoastTelemetry.Proofs.Document.Floats
import RoastTelemetry.Proofs.Document.Samples
import RoastTelemetry.Proofs.Document.Results
import RoastTelemetry.Proofs.Document.Settings
import RoastTelemetry.Proofs.Document.RoundTrips
import RoastTelemetry.Proofs.Document.Reload
import RoastTelemetry.Proofs.History.Queries
import RoastTelemetry.Proofs.Thinning.Transitions
import RoastTelemetry.Proofs.Rise.Outliers
import RoastTelemetry.Proofs.Rise.Readings
import RoastTelemetry.Proofs.Binary.Bounds
import RoastTelemetry.Proofs.Binary.Sums
import RoastTelemetry.Proofs.Roast.Means
import RoastTelemetry.Proofs.Roast.Development
import RoastTelemetry.Proofs.Rise.Direction
import RoastTelemetry.Proofs.Rise.Standstill
import RoastTelemetry.Proofs.Roast.Incremental
import RoastTelemetry.Proofs.Json.Spelling
import RoastTelemetry.Proofs.Json.Members
import RoastTelemetry.Proofs.Json.Omissions
import RoastTelemetry.Proofs.Document.Payloads
import RoastTelemetry.Proofs.Document.Overlay
import RoastTelemetry.Proofs.History.Handles
import RoastTelemetry.Gain
import RoastTelemetry.Proofs.Document.Gains
import RoastTelemetry.Proofs.Settings
import RoastTelemetry.Proofs.Report
